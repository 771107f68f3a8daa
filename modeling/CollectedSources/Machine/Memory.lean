import Mathlib

/-! # Buffers of bytes

A buffer is the list of its bytes. Accesses outside it are undefined; strings
in it end at their first zero byte.
-/

namespace CollectedSources.Memory

variable {α : Type*}

def store (mem : List α) (p : ℕ) (c : α) : Option (List α) :=
  if p < mem.length then some (mem.set p c) else none

def storeBytes (mem : List α) (p : ℕ) (bs : List α) : Option (List α) :=
  if p + bs.length ≤ mem.length then some (mem.take p ++ (bs ++ mem.drop (p + bs.length)))
  else none

theorem storeBytes_append (pre old post bs : List α) (h : bs.length = old.length) :
    storeBytes (pre ++ (old ++ post)) pre.length bs = some (pre ++ (bs ++ post)) := by
  simp [storeBytes, h, List.drop_append]

theorem store_append (pre old post : List α) {i : ℕ} (c : α) (h : i < old.length) :
    store (pre ++ (old ++ post)) (pre.length + i) c = some (pre ++ (old.set i c ++ post)) := by
  simp [store, h]
  omega

theorem length_store {mem mem' : List α} {p : ℕ} {c : α} (h : store mem p c = some mem') :
    mem'.length = mem.length := by
  rw [store] at h
  split at h
  · obtain rfl := Option.some.inj h
    exact List.length_set
  · cases h

theorem length_storeBytes {mem mem' bs : List α} {p : ℕ} (h : storeBytes mem p bs = some mem') :
    mem'.length = mem.length := by
  rw [storeBytes] at h
  split at h
  · obtain rfl := Option.some.inj h
    simp
    omega
  · cases h

variable [Zero α]

/-- Zero-terminated words one after the other. -/
def slots (ws : List (List α)) : List α := ws.flatMap (· ++ [0])

@[simp] theorem slots_append (ws vs : List (List α)) : slots (ws ++ vs) = slots ws ++ slots vs := by
  simp [slots]

theorem slots_cons (w : List α) (ws : List (List α)) :
    slots (w :: ws) = w ++ 0 :: slots ws := by
  simp [slots]

theorem length_slots {n : ℕ} {ws : List (List α)} (h : ∀ w ∈ ws, w.length = n) :
    (slots ws).length = ws.length * (n + 1) := by
  induction ws with
  | nil => simp [slots]
  | cons w ws ih =>
    have ih := ih fun v hv => h v (List.mem_cons_of_mem _ hv)
    simp only [slots, List.flatMap_cons, List.length_append, List.length_cons, List.length_nil,
      h w List.mem_cons_self] at ih ⊢
    rw [ih, Nat.add_mul]
    omega

variable [DecidableEq α]

/-- The string that starts at an offset, if it ends inside the buffer. -/
def cstring (mem : List α) (p : ℕ) : Option (List α) :=
  if 0 ∈ mem.drop p then some ((mem.drop p).takeWhile (· ≠ 0)) else none

def strcpy (mem : List α) (dst src : ℕ) : Option (List α) :=
  (cstring mem src).bind fun w => storeBytes mem dst (w ++ [0])

theorem cstring_append (pre post : List α) {w : List α} (hw : 0 ∉ w) :
    cstring (pre ++ (w ++ 0 :: post)) pre.length = some w := by
  have ht : (w ++ 0 :: post).takeWhile (· ≠ 0) = w := by
    rw [List.takeWhile_append_of_pos fun c hc => by simpa using ne_of_mem_of_not_mem hc hw]
    simp
  simp only [cstring, List.drop_left, ht]
  simp

theorem cstring_slots {n j : ℕ} {ws : List (List α)} (h : ∀ w ∈ ws, w.length = n ∧ 0 ∉ w)
    (hj : j < ws.length) (rest : List α) :
    cstring (slots ws ++ rest) (j * (n + 1)) = some ws[j] := by
  have hs : ws = ws.take j ++ (ws[j] :: ws.drop (j + 1)) := by
    rw [← List.drop_eq_getElem_cons hj, List.take_append_drop]
  have hl : (slots (ws.take j)).length = j * (n + 1) := by
    rw [length_slots (n := n) fun w hw => (h w (List.mem_of_mem_take hw)).1,
      List.length_take_of_le (Nat.le_of_lt hj)]
  have hm : slots ws ++ rest =
      slots (ws.take j) ++ (ws[j] ++ 0 :: (slots (ws.drop (j + 1)) ++ rest)) := by
    conv_lhs => rw [hs, slots_append, slots_cons]
    simp
  rw [hm, ← hl]
  exact cstring_append _ _ (h _ (List.getElem_mem hj)).2

section Overlay

variable {β : Type*} {w : ℕ}

/-- A memory with values from one address on; the last address is followed by the first one. -/
def overlay (mem : BitVec w → β) (start : BitVec w) (bs : List β) (a : BitVec w) : β :=
  (bs[(a - start).toNat]?).getD (mem a)

theorem toNat_sub_of_ne {a start : BitVec w} (h : a ≠ start) :
    (a - start).toNat = (a - (start + 1)).toNat + 1 := by
  have hw : w ≠ 0 := by
    rintro rfl
    exact h (Subsingleton.elim a start)
  have hne : a.toNat ≠ start.toNat := fun heq => h (BitVec.eq_of_toNat_eq heq)
  have ha := a.isLt
  have hs := start.isLt
  have hone : (1 : BitVec w).toNat = 1 := BitVec.toNat_one (Nat.pos_of_ne_zero hw)
  have htwo : 2 ≤ 2 ^ w := Nat.pow_le_pow_right Nat.two_pos (Nat.pos_of_ne_zero hw)
  rw [BitVec.toNat_sub, BitVec.toNat_sub, BitVec.toNat_add, hone]
  generalize 2 ^ w = m at *
  rcases Nat.lt_or_ge (start.toNat + 1) m with hlt | hge
  · rw [Nat.mod_eq_of_lt hlt]
    rcases Nat.lt_or_ge a.toNat start.toNat with hlt' | hge'
    · rw [Nat.mod_eq_of_lt (by omega), Nat.mod_eq_of_lt (by omega)]
      omega
    · rw [Nat.mod_eq_sub_mod (by omega), Nat.mod_eq_of_lt (by omega),
        Nat.mod_eq_sub_mod (by omega), Nat.mod_eq_of_lt (by omega)]
      omega
  · have hlast : start.toNat + 1 = m := by omega
    rw [hlast, Nat.mod_self, Nat.mod_eq_of_lt (by omega), Nat.mod_eq_sub_mod (by omega),
      Nat.mod_eq_of_lt (by omega)]
    omega

theorem overlay_update (mem : BitVec w → β) (start : BitVec w) (b : β) {bs : List β}
    (h : bs.length < 2 ^ w) :
    overlay (Function.update mem start b) (start + 1) bs = overlay mem start (b :: bs) := by
  ext1 a
  by_cases ha : a = start
  · subst ha
    have hlast : (a - (a + 1)).toNat = 2 ^ w - 1 := by
      have hneg : a - (a + 1) = BitVec.allOnes w := by
        rw [sub_add_cancel_left]
        exact BitVec.neg_one_eq_allOnes
      rw [hneg, BitVec.toNat_allOnes]
    have hnone : bs[(a - (a + 1)).toNat]? = none := by
      apply List.getElem?_eq_none
      omega
    simp only [overlay, hnone, Option.getD_none, Function.update_self, BitVec.sub_self]
    rfl
  · simp only [overlay, Function.update_of_ne ha, toNat_sub_of_ne ha, List.getElem?_cons_succ]

end Overlay

end CollectedSources.Memory
