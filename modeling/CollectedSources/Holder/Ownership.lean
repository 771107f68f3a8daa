import CollectedSources.Machine.Ledger
import CollectedSources.Machine.Run

/-! # Ownership through holders

A holder keeps a resource and a validity flag; moving out of it clears the flag
and leaves the old bits of the resource behind. Any sequence of operations on
any number of holders keeps an ownership ledger.
-/

namespace CollectedSources

structure Holder (T : Type*) where
  valid : Bool
  x : T

namespace Holder

variable {T : Type*}

def invalidate (o : Holder T) : Holder T := { o with valid := false }

/-- The value handed out and the holder afterwards, with the bits of the value still in it. -/
def release (o : Holder T) : T × Holder T := (o.x, o.invalidate)

/-- The holder afterwards and the values passed to `Destroy`. -/
def destroy (o : Holder T) : Holder T × List T :=
  if o.valid then
    let (t, o) := o.release
    (o, [t])
  else (o, [])

def set (o : Holder T) (t : T) (valid : Bool) : Holder T × List T :=
  let (o, destroyed) := o.destroy
  (⟨valid, if valid then t else o.x⟩, destroyed)

/-- The new holder and the one it was moved from. -/
def moveConstruct (o : Holder T) : Holder T × Holder T := (⟨o.valid, o.x⟩, o.invalidate)

/-- The assigned holder, the one it was moved from and the values passed to `Destroy`. -/
def moveAssign (this o : Holder T) : Holder T × Holder T × List T :=
  let valid := o.valid
  let (t, o) := o.release
  let (this, destroyed) := this.set t valid
  (this, o, destroyed)

/-- The resource a holder owns. -/
def owned (o : Holder T) : Option T := if o.valid then some o.x else none

@[simp] theorem destroyed_destroy (o : Holder T) : o.destroy.2 = o.owned.toList := by
  unfold destroy owned
  split_ifs <;> rfl

@[simp] theorem owned_set (o : Holder T) (t : T) (valid : Bool) :
    (o.set t valid).1.owned = if valid then some t else none := by
  cases valid <;> rfl

@[simp] theorem destroyed_set (o : Holder T) (t : T) (valid : Bool) :
    (o.set t valid).2 = o.owned.toList := destroyed_destroy o

@[simp] theorem owned_moveAssign (this o : Holder T) :
    (this.moveAssign o).1.owned = o.owned := owned_set this o.x o.valid

@[simp] theorem owned_moveAssign_source (this o : Holder T) :
    (this.moveAssign o).2.1.owned = none := rfl

@[simp] theorem destroyed_moveAssign (this o : Holder T) :
    (this.moveAssign o).2.2 = this.owned.toList := destroyed_destroy this

end Holder

/-- The live holders, what has been passed to `Destroy`, handed out and given as valid. -/
structure World (O T : Type*) where
  holders : O → Option (Holder T)
  destroyed : List T
  released : List T
  given : List T

/-- The operations on holders; `bits` is what an uninitialised holder happens to contain. -/
inductive Op (O T : Type*) where
  | default (i : O) (bits : T)
  | construct (i : O) (r : T)
  | moveConstruct (i j : O)
  | moveAssign (i j : O)
  | set (i : O) (r : T) (valid : Bool)
  | release (i : O)
  | destruct (i : O)

namespace World

variable {O T : Type*}

def init : World O T := ⟨fun _ => none, [], [], []⟩

/-- The resource owned by an object. -/
def owned (w : World O T) (i : O) : Option T := (w.holders i).bind Holder.owned

/-- An object that lives and owns a resource. -/
def Owns (w : World O T) (i : O) (r : T) : Prop :=
  ∃ o, w.holders i = some o ∧ o.valid = true ∧ o.x = r

theorem owns_iff {w : World O T} {i : O} {r : T} : w.Owns i r ↔ w.owned i = some r := by
  simp only [Owns, owned, Option.bind_eq_some_iff, Holder.owned]
  constructor
  · rintro ⟨o, ho, hv, rfl⟩; exact ⟨o, ho, by simp [hv]⟩
  · rintro ⟨o, ho, hx⟩
    split_ifs at hx with hv
    exact ⟨o, ho, hv, Option.some.inj hx⟩

/-- A ledger records what a world owns, has destroyed, handed out and been given. -/
structure Represents [DecidableEq T] (w : World O T) (L : Ledger O T) : Prop where
  owned : w.owned = L.owned
  destroyed : w.destroyed = L.destroyed
  released : w.released = L.released
  given : w.given = L.given

theorem represents_init [DecidableEq T] : Represents (init : World O T) Ledger.empty :=
  ⟨rfl, rfl, rfl, rfl⟩

theorem Represents.owned_live [DecidableEq T] {w : World O T} {L : Ledger O T} {i : O}
    (hL : Represents w L) {o : Holder T} (hi : w.holders i = some o) :
    L.owned i = o.owned := by
  rw [← hL.owned, World.owned, hi, Option.bind_some]

theorem Represents.owned_dead [DecidableEq T] {w : World O T} {L : Ledger O T} {i : O}
    (hL : Represents w L) (hi : w.holders i = none) :
    L.owned i = none := by
  rw [← hL.owned, World.owned, hi, Option.bind_none]

variable [DecidableEq O]

def put (w : World O T) (i : O) (o : Option (Holder T)) : World O T :=
  { w with holders := Function.update w.holders i o }

theorem owned_put (w : World O T) (i : O) (o : Option (Holder T)) :
    (w.put i o).owned = Function.update w.owned i (o.bind Holder.owned) := by
  funext j
  by_cases hj : j = i
  · subst hj; simp [owned, put]
  · simp [owned, put, Function.update_of_ne hj]

variable [DecidableEq T]

/-- One operation, if the program may perform it: objects are used while they live, resources
are fresh, and only valid holders are released. -/
def step (w : World O T) : Op O T → Option (World O T)
  | .default i bits =>
    match w.holders i with
    | none => some (w.put i (some ⟨false, bits⟩))
    | some _ => none
  | .construct i r =>
    match w.holders i with
    | none =>
      if r ∈ w.given then none
      else some { w.put i (some ⟨true, r⟩) with given := w.given ++ [r] }
    | some _ => none
  | .moveConstruct i j =>
    match w.holders i, w.holders j with
    | none, some o =>
      let (this, o) := o.moveConstruct
      some ((w.put i (some this)).put j (some o))
    | _, _ => none
  | .moveAssign i j =>
    match w.holders i, w.holders j with
    | some this, some o =>
      if i = j then some w
      else
        let (this, o, destroyed) := this.moveAssign o
        some { (w.put i (some this)).put j (some o) with destroyed := w.destroyed ++ destroyed }
    | _, _ => none
  | .set i r valid =>
    match w.holders i with
    | some this =>
      if r ∈ w.given then none
      else
        let (this, destroyed) := this.set r valid
        some { w.put i (some this) with
          destroyed := w.destroyed ++ destroyed
          given := if valid then w.given ++ [r] else w.given }
    | none => none
  | .release i =>
    match w.holders i with
    | some this =>
      if this.valid then
        let (t, this) := this.release
        some { w.put i (some this) with released := w.released ++ [t] }
      else none
    | none => none
  | .destruct i =>
    match w.holders i with
    | some this =>
      some { w.put i none with destroyed := w.destroyed ++ this.destroy.2 }
    | none => none

variable {w w' : World O T} {L : Ledger O T} {i j : O}

theorem represents_default (hL : Represents w L) (hi : w.holders i = none) (bits : T) :
    Represents (w.put i (some ⟨false, bits⟩)) L := by
  refine ⟨?_, hL.destroyed, hL.released, hL.given⟩
  rw [owned_put, hL.owned, Function.update_eq_self_iff, hL.owned_dead hi]
  rfl

theorem represents_construct (hL : Represents w L) (hi : w.holders i = none) {r : T}
    (hr : r ∉ w.given) :
    Represents { w.put i (some ⟨true, r⟩) with given := w.given ++ [r] }
      (L.give i r (hL.owned_dead hi) (hL.given ▸ hr)) := by
  refine ⟨?_, hL.destroyed, hL.released, congrArg (· ++ [r]) hL.given⟩
  change (w.put i (some ⟨true, r⟩)).owned = _
  rw [owned_put, hL.owned]
  rfl

theorem represents_moveConstruct (hL : Represents w L) (hi : w.holders i = none)
    {o : Holder T} (hj : w.holders j = some o) (hij : j ≠ i) :
    Represents ((w.put i (some o.moveConstruct.1)).put j (some o.moveConstruct.2))
      (L.move j i hij (hL.owned_dead hi)) := by
  refine ⟨?_, hL.destroyed, hL.released, hL.given⟩
  rw [owned_put, owned_put, hL.owned]
  simp only [Ledger.move, hL.owned_live hj]
  rfl

theorem represents_moveAssign (hL : Represents w L) {this o : Holder T}
    (hi : w.holders i = some this) (hj : w.holders j = some o) (hij : j ≠ i) :
    Represents
      { (w.put i (some (this.moveAssign o).1)).put j (some (this.moveAssign o).2.1) with
        destroyed := w.destroyed ++ (this.moveAssign o).2.2 }
      ((L.dispose i).move j i hij (Function.update_self ..)) := by
  refine ⟨?_, ?_, hL.released, hL.given⟩
  · change ((w.put i (some (this.moveAssign o).1)).put j (some (this.moveAssign o).2.1)).owned = _
    rw [owned_put, owned_put, hL.owned]
    simp [Ledger.move, Ledger.dispose, Ledger.leave, Function.update_of_ne hij, hL.owned_live hj]
  · simp [Ledger.move, Ledger.dispose, Ledger.leave, hL.destroyed, hL.owned_live hi]

theorem represents_set_valid (hL : Represents w L) {this : Holder T}
    (hi : w.holders i = some this) {r : T} (hr : r ∉ w.given) :
    Represents
      { w.put i (some (this.set r true).1) with
        destroyed := w.destroyed ++ (this.set r true).2
        given := w.given ++ [r] }
      ((L.dispose i).give i r (Function.update_self ..) (hL.given ▸ hr)) := by
  refine ⟨?_, ?_, hL.released, congrArg (· ++ [r]) hL.given⟩
  · change (w.put i (some (this.set r true).1)).owned = _
    rw [owned_put, hL.owned]
    simp [Ledger.give, Ledger.dispose, Ledger.leave]
  · simp [Ledger.give, Ledger.dispose, Ledger.leave, hL.destroyed, hL.owned_live hi]

theorem represents_set_invalid (hL : Represents w L) {this : Holder T}
    (hi : w.holders i = some this) (r : T) :
    Represents
      { w.put i (some (this.set r false).1) with
        destroyed := w.destroyed ++ (this.set r false).2 } (L.dispose i) := by
  refine ⟨?_, ?_, hL.released, hL.given⟩
  · change (w.put i (some (this.set r false).1)).owned = _
    rw [owned_put, hL.owned]
    rfl
  · simp [Ledger.dispose, Ledger.leave, hL.destroyed, hL.owned_live hi]

theorem represents_release (hL : Represents w L) {this : Holder T}
    (hi : w.holders i = some this) (hv : this.valid) :
    Represents
      { w.put i (some this.release.2) with released := w.released ++ [this.release.1] }
      (L.release i) := by
  refine ⟨?_, hL.destroyed, ?_, hL.given⟩
  · change (w.put i (some this.release.2)).owned = _
    rw [owned_put, hL.owned]
    rfl
  · simp [Ledger.release, Ledger.leave, hL.released, hL.owned_live hi, Holder.owned, hv,
      Holder.release]

theorem represents_destruct (hL : Represents w L) {this : Holder T}
    (hi : w.holders i = some this) :
    Represents { w.put i none with destroyed := w.destroyed ++ this.destroy.2 }
      (L.dispose i) := by
  refine ⟨?_, ?_, hL.released, hL.given⟩
  · change (w.put i none).owned = _
    rw [owned_put, hL.owned]
    rfl
  · simp [Ledger.dispose, Ledger.leave, hL.destroyed, hL.owned_live hi]

theorem represents_step {op : Op O T} (h : w.step op = some w') (hL : Represents w L) :
    ∃ L' : Ledger O T, Represents w' L' := by
  cases op with
  | default i bits =>
    simp only [step] at h
    split at h
    · rename_i hi
      obtain rfl := Option.some.inj h
      exact ⟨_, represents_default hL hi _⟩
    · simp at h
  | construct i r =>
    simp only [step] at h
    split at h
    · rename_i hi
      split_ifs at h with hr
      obtain rfl := Option.some.inj h
      exact ⟨_, represents_construct hL hi hr⟩
    · simp at h
  | moveConstruct i j =>
    simp only [step] at h
    split at h
    · rename_i o hi hj
      obtain rfl := Option.some.inj h
      exact ⟨_, represents_moveConstruct hL hi hj (by rintro rfl; simp [hi] at hj)⟩
    · simp at h
  | moveAssign i j =>
    simp only [step] at h
    split at h
    · rename_i this o hi hj
      split_ifs at h with hij
      · obtain rfl := Option.some.inj h
        exact ⟨L, hL⟩
      · obtain rfl := Option.some.inj h
        exact ⟨_, represents_moveAssign hL hi hj (Ne.symm hij)⟩
    · simp at h
  | set i r valid =>
    simp only [step] at h
    split at h
    · rename_i this hi
      split_ifs at h with hr hv
      · obtain rfl := Option.some.inj h
        subst hv
        exact ⟨_, represents_set_valid hL hi hr⟩
      · obtain rfl := Option.some.inj h
        obtain rfl : valid = false := by simpa using hv
        exact ⟨_, represents_set_invalid hL hi r⟩
    · simp at h
  | release i =>
    simp only [step] at h
    split at h
    · rename_i this hi
      split_ifs at h with hv
      obtain rfl := Option.some.inj h
      exact ⟨_, represents_release hL hi hv⟩
    · simp at h
  | destruct i =>
    simp only [step] at h
    split at h
    · rename_i this hi
      obtain rfl := Option.some.inj h
      exact ⟨_, represents_destruct hL hi⟩
    · simp at h

theorem represents_run {ops : List (Op O T)} (h : Machine.run step init ops = some w) :
    ∃ L : Ledger O T, Represents w L :=
  Machine.run_invariant (I := fun w => ∃ L : Ledger O T, Represents w L)
    (fun _ _ _ _ hs ⟨_, hL⟩ => represents_step hs hL) h ⟨_, represents_init⟩

/--
After any operations each resource given as valid is owned by exactly one holder, destroyed once
or handed out once, and it is owned no more when no holder lives.
-/
theorem ownership {ops : List (Op O T)} (h : Machine.run step init ops = some w) {r : T}
    (hr : r ∈ w.given) :
    (((∃! i, w.Owns i r) ∧ w.destroyed.count r = 0 ∧ w.released.count r = 0) ∨
      ((∀ i, ¬ w.Owns i r) ∧ w.destroyed.count r = 1 ∧ w.released.count r = 0) ∨
      ((∀ i, ¬ w.Owns i r) ∧ w.destroyed.count r = 0 ∧ w.released.count r = 1)) ∧
    ((∀ i, w.holders i = none) → ∀ i, ¬ w.Owns i r) := by
  obtain ⟨L, hL⟩ := represents_run h
  constructor
  · simp only [owns_iff, hL.owned, hL.destroyed, hL.released]
    exact L.accounted (hL.given ▸ hr)
  · rintro hd i ⟨o, ho, _⟩
    simp [hd i] at ho

/-- A resource is moved twice and destroyed, while its first holder is used again. -/
def movedTwice : List (Op ℕ ℕ) :=
  [.construct 0 7, .default 1 0, .moveAssign 1 0, .moveAssign 1 1, .set 0 8 true,
    .moveConstruct 2 1, .release 0, .destruct 2]

theorem ownership_movedTwice :
    ∃ w : World ℕ ℕ, Machine.run step init movedTwice = some w ∧ 7 ∈ w.given ∧
      (((∃! i, w.Owns i 7) ∧ w.destroyed.count 7 = 0 ∧ w.released.count 7 = 0) ∨
        ((∀ i, ¬ w.Owns i 7) ∧ w.destroyed.count 7 = 1 ∧ w.released.count 7 = 0) ∨
        ((∀ i, ¬ w.Owns i 7) ∧ w.destroyed.count 7 = 0 ∧ w.released.count 7 = 1)) := by
  obtain ⟨w, hw⟩ : ∃ w, Machine.run step init movedTwice = some w := ⟨_, rfl⟩
  have hg : 7 ∈ w.given := by
    obtain rfl := Option.some.inj hw
    decide
  exact ⟨w, hw, hg, (ownership hw hg).1⟩

end World

end CollectedSources
