import CollectedSources.Machine.Heap
import CollectedSources.Machine.Process
import Mathlib

/-! # The variables of the interpreter

Variables are kept in a list, each with a type and a word that is an integer or
the address of a string. The calls on the list act on a typed map: a variable
has the type of its first declaration and the value that was set last.
-/

namespace CollectedSources.Mp

open Process

abbrev Text := List Char

inductive VarType | str | int
  deriving DecidableEq, Repr

/-- A variable; the content is a union of an `int` and a pointer. -/
structure Var where
  name : String
  type : VarType
  content : ℕ
  deriving DecidableEq, Repr

/-- The integer in the lower half of the word. -/
def Var.icnt (v : Var) : BitVec 32 := BitVec.ofNat 32 v.content

def Var.scnt (v : Var) : ℕ := v.content

structure Store where
  varis : List Var
  heap : Heap Text

inductive Fault | nullVariable | nullString | badFree | overflow
  deriving DecidableEq, Repr

section Calls

def Store.empty : Store := ⟨[], .empty⟩

def findvar (s : Store) (name : String) : Option Var := s.varis.find? (·.name = name)

/-- Write to the variable that `findvar` finds. -/
def assign (name : String) (f : ℕ → ℕ) : List Var → List Var
  | [] => []
  | v :: vs =>
    if v.name = name then { v with content := f v.content } :: vs else v :: assign name f vs

/-- The lower half of the word. -/
def setIcnt (what : BitVec 32) (content : ℕ) : ℕ := content / 2 ^ 32 * 2 ^ 32 + what.toNat

/-- The text of a number as `sprintf` writes it. -/
def decimal (n : ℤ) : Text :=
  if n < 0 then '-' :: Nat.toDigits 10 n.natAbs else Nat.toDigits 10 n.natAbs

/-- Write a string and its zero to a buffer. -/
def fill (capacity : ℕ) (text : Text) : Except Fault Text :=
  if text.length + 1 ≤ capacity then .ok text else .error .overflow

def missing (name : String) : String := "Variable '" ++ name ++ "' doesn't exist!\n"

/-- The calls return what they print to `stderr`. -/
def newvar (s : Store) (type : VarType) (name : String) : List String × Store :=
  match findvar s name with
  | some _ => (["The variable '" ++ name ++ "' exists!\n"], s)
  | none => ([], { s with varis := s.varis ++ [⟨name, type, 0⟩] })

def setivar (s : Store) (name : String) (what : BitVec 32) : List String × Store :=
  match findvar s name with
  | none => ([missing name], s)
  | some v =>
    if v.type ≠ .int then (["Incompatible types, " ++ name ++ " isn't integral!\n"], s)
    else ([], { s with varis := assign name (setIcnt what) s.varis })

def setsvar (s : Store) (name : String) (what : ℕ) : List String × Store :=
  match findvar s name with
  | none => ([missing name], s)
  | some v =>
    if v.type ≠ .str then (["Incompatible types, '" ++ name ++ "' isn't string!\n"], s)
    else ([], { s with varis := assign name (fun _ => what) s.varis })

/-- The text that `getvar` writes to its buffer. -/
def getvarText (s : Store) (name : String) : List String × Except Fault Text :=
  match findvar s name with
  | none => ([missing name], .ok [])
  | some v =>
    match v.type with
    | .str =>
      match s.heap.blocks v.scnt with
      | none => ([], .error .nullString)
      | some text => ([], fill 128 text)
    | .int => ([], fill 128 (decimal v.icnt.toInt))

/-- The address of the buffer is the result. -/
def getvar (s : Store) (name : String) : List String × Except Fault (ℕ × Store) :=
  ((getvarText s name).1,
    (getvarText s name).2.map fun text => (s.heap.next, { s with heap := s.heap.alloc text }))

inductive Call
  | newvar (type : VarType) (name : String)
  | setivar (name : String) (what : BitVec 32)
  | setsvar (name : String) (what : Text)
  | getvar (name : String)
  deriving DecidableEq, Repr

inductive Event
  | stderr (text : String)
  | returned (text : Text)
  | fault (f : Fault)
  deriving DecidableEq, Repr

/-- A call with its caller: a string is in a new block. -/
def call (s : Store) : Call → List Event × Option Store
  | .newvar type name => ((newvar s type name).1.map .stderr, some (newvar s type name).2)
  | .setivar name what => ((setivar s name what).1.map .stderr, some (setivar s name what).2)
  | .setsvar name what =>
    let s' := { s with heap := s.heap.alloc what }
    ((setsvar s' name s.heap.next).1.map .stderr, some (setsvar s' name s.heap.next).2)
  | .getvar name =>
    match getvar s name with
    | (errors, .ok (p, s')) =>
      (errors.map .stderr ++ ((s'.heap.blocks p).map .returned).toList, some s')
    | (errors, .error f) => (errors.map .stderr ++ [.fault f], none)

end Calls

section TypedMap

/-- A typed value. A string may not be set yet. -/
inductive Entry
  | int (n : BitVec 32)
  | str (text : Option Text)
  deriving DecidableEq, Repr

def Entry.type : Entry → VarType
  | .int _ => .int
  | .str _ => .str

theorem type_int (n : BitVec 32) : (Entry.int n).type = .int := rfl

theorem type_str (text : Option Text) : (Entry.str text).type = .str := rfl

def Entry.new : VarType → Entry
  | .int => .int 0
  | .str => .str none

/-- A map from names to typed values, in the order of the declarations. -/
abbrev TypedMap := List (String × Entry)

namespace TypedMap

def get (m : TypedMap) (name : String) : Option Entry :=
  (m.find? (·.1 = name)).map Prod.snd

def declare (m : TypedMap) (type : VarType) (name : String) : TypedMap :=
  if (m.get name).isSome then m else m ++ [(name, Entry.new type)]

/-- Set a variable, if it has the type of the value. -/
def set (m : TypedMap) (name : String) (e : Entry) : TypedMap :=
  m.map fun p => if p.1 = name ∧ p.2.type = e.type then (name, e) else p

def call (m : TypedMap) : Call → TypedMap
  | .newvar type name => m.declare type name
  | .setivar name what => m.set name (.int what)
  | .setsvar name what => m.set name (.str (some what))
  | .getvar _ => m

end TypedMap

def Var.entry (heap : Heap Text) (v : Var) : Entry :=
  match v.type with
  | .int => .int v.icnt
  | .str => .str (heap.blocks v.scnt)

/-- The map that a list of variables stands for. -/
def Store.view (s : Store) : TypedMap := s.varis.map fun v => (v.name, v.entry s.heap)

end TypedMap

section Refinement

/-- Names are different and addresses are old. -/
structure Store.WellFormed (s : Store) : Prop where
  names : (s.varis.map Var.name).Nodup
  addresses : ∀ v ∈ s.varis, v.type = .str → v.content < s.heap.next

variable {s s' : Store} {name : String} {m : TypedMap}

theorem wellFormed_empty : Store.empty.WellFormed := ⟨List.nodup_nil, fun v hv => by cases hv⟩

@[simp] theorem type_entry (heap : Heap Text) (v : Var) : (v.entry heap).type = v.type := by
  unfold Var.entry
  split <;> simp_all [Entry.type]

theorem get_view (s : Store) (name : String) :
    s.view.get name = (findvar s name).map (Var.entry s.heap) := by
  rw [TypedMap.get, Store.view, List.find?_map, findvar, Option.map_map]
  rfl

theorem findvar_eq_some {v : Var} (h : findvar s name = some v) : v ∈ s.varis ∧ v.name = name :=
  ⟨List.mem_of_find?_eq_some h, by simpa using List.find?_some h⟩

theorem findvar_eq_none : findvar s name = none ↔ name ∉ s.varis.map Var.name := by
  simp [findvar]

theorem names_assign (name : String) (f : ℕ → ℕ) (vs : List Var) :
    (assign name f vs).map (fun v => (v.name, v.type)) = vs.map fun v => (v.name, v.type) := by
  induction vs with
  | nil => rfl
  | cons v vs ih =>
    rw [assign]
    split
    · rfl
    · rw [List.map_cons, ih, List.map_cons]

/-- With different names only one variable is written to. -/
theorem assign_eq_map (f : ℕ → ℕ) {vs : List Var} (h : (vs.map Var.name).Nodup) :
    assign name f vs =
      vs.map fun v => if v.name = name then { v with content := f v.content } else v := by
  induction vs with
  | nil => rfl
  | cons v vs ih =>
    rw [List.map_cons, List.nodup_cons] at h
    rw [assign, List.map_cons]
    split
    · rename_i hname
      congr 1
      refine (List.map_id vs).symm.trans (List.map_congr_left fun w hw => (if_neg ?_).symm)
      rintro rfl
      exact h.1 (hname ▸ List.mem_map_of_mem hw)
    · rw [ih h.2]

theorem Store.WellFormed.eq_of_name (h : s.WellFormed) {v w : Var} (hv : findvar s name = some v)
    (hw : w ∈ s.varis) (hname : w.name = name) : w = v := by
  obtain ⟨hmem, hv⟩ := findvar_eq_some hv
  exact List.inj_on_of_nodup_map h.names hw hmem (hname.trans hv.symm)

theorem Store.WellFormed.view_assign (h : s.WellFormed) {v : Var} {f : ℕ → ℕ} {e : Entry}
    (hv : findvar s name = some v) (htype : v.type = e.type)
    (he : Var.entry s.heap { v with content := f v.content } = e) :
    Store.view { s with varis := assign name f s.varis } = s.view.set name e := by
  rw [Store.view, assign_eq_map f h.names, Store.view, TypedMap.set, List.map_map, List.map_map]
  refine List.map_congr_left fun w hw => ?_
  simp only [Function.comp_apply, type_entry]
  by_cases hname : w.name = name
  · obtain rfl := h.eq_of_name hv hw hname
    rw [if_pos hname, if_pos ⟨hname, htype⟩, he, hname]
  · rw [if_neg hname, if_neg fun hand => hname hand.1]

theorem Store.WellFormed.set_view (h : s.WellFormed) {e : Entry}
    (hv : ∀ v, findvar s name = some v → v.type ≠ e.type) : s.view.set name e = s.view := by
  rw [TypedMap.set, Store.view, List.map_map]
  refine List.map_congr_left fun w hw => if_neg ?_
  rintro ⟨hname, htype⟩
  rcases hfind : findvar s name with _ | v
  · exact findvar_eq_none.mp hfind (hname ▸ List.mem_map_of_mem hw)
  · rw [type_entry, h.eq_of_name hfind hw hname] at htype
    exact hv v hfind htype

theorem ofNat_setIcnt (what : BitVec 32) (content : ℕ) :
    BitVec.ofNat 32 (setIcnt what content) = what := by
  apply BitVec.eq_of_toNat_eq
  have hlt : what.toNat < 2 ^ 32 := what.isLt
  rw [BitVec.toNat_ofNat, setIcnt]
  omega

theorem Store.WellFormed.view_alloc (h : s.WellFormed) (text : Text) :
    Store.view { s with heap := s.heap.alloc text } = s.view := by
  refine List.map_congr_left fun v hv => ?_
  rcases htype : v.type with _ | _
  · simp only [Var.entry, htype, Var.scnt, Heap.blocks_alloc_of_lt (h.addresses v hv htype)]
  · simp only [Var.entry, htype]

theorem Store.WellFormed.alloc (h : s.WellFormed) (text : Text) :
    Store.WellFormed { s with heap := s.heap.alloc text } where
  names := h.names
  addresses v hv htype := Nat.lt_succ_of_lt (h.addresses v hv htype)

theorem Store.WellFormed.assign (h : s.WellFormed) {f : ℕ → ℕ}
    (hf : ∀ v ∈ s.varis, v.name = name → v.type = .str → f v.content < s.heap.next) :
    Store.WellFormed { s with varis := assign name f s.varis } where
  names := by
    have hnames := congrArg (List.map Prod.fst) (names_assign name f s.varis)
    simp only [List.map_map] at hnames
    exact hnames ▸ h.names
  addresses v hv htype := by
    simp only [assign_eq_map f h.names, List.mem_map] at hv
    obtain ⟨w, hw, rfl⟩ := hv
    split
    · rename_i hname
      rw [if_pos hname] at htype
      exact hf w hw hname htype
    · rename_i hname
      rw [if_neg hname] at htype
      exact h.addresses w hw htype

theorem setivar_of_ne {what : BitVec 32} (h : ∀ v, findvar s name = some v → v.type ≠ .int) :
    (setivar s name what).2 = s := by
  unfold setivar
  split
  · rfl
  · rename_i v hv
    rw [if_pos (h v hv)]

theorem setsvar_of_ne {what : ℕ} (h : ∀ v, findvar s name = some v → v.type ≠ .str) :
    (setsvar s name what).2 = s := by
  unfold setsvar
  split
  · rfl
  · rename_i v hv
    rw [if_pos (h v hv)]

theorem setivar_of_eq {what : BitVec 32} {v : Var} (hv : findvar s name = some v)
    (htype : v.type = .int) :
    setivar s name what = ([], { s with varis := assign name (setIcnt what) s.varis }) := by
  rw [setivar, hv]
  exact if_neg (not_not.mpr htype)

theorem setsvar_of_eq {what : ℕ} {v : Var} (hv : findvar s name = some v) (htype : v.type = .str) :
    setsvar s name what = ([], { s with varis := assign name (fun _ => what) s.varis }) := by
  rw [setsvar, hv]
  exact if_neg (not_not.mpr htype)

theorem Store.WellFormed.setivar (h : s.WellFormed) (name : String) (what : BitVec 32) :
    (setivar s name what).2.WellFormed ∧
      (setivar s name what).2.view = s.view.set name (.int what) := by
  by_cases hne : ∀ v, findvar s name = some v → v.type ≠ .int
  · rw [setivar_of_ne hne, h.set_view hne]
    exact ⟨h, rfl⟩
  · push Not at hne
    obtain ⟨v, hv, htype⟩ := hne
    rw [setivar_of_eq hv htype]
    constructor
    · refine h.assign fun w hw hname hstr => ?_
      rw [h.eq_of_name hv hw hname, htype] at hstr
      cases hstr
    · refine h.view_assign hv htype ?_
      simp only [Var.entry, htype, Var.icnt, ofNat_setIcnt]

theorem Store.WellFormed.setsvar (h : s.WellFormed) (name : String) {p : ℕ} {text : Text}
    (hp : s.heap.blocks p = some text) :
    (setsvar s name p).2.WellFormed ∧
      (setsvar s name p).2.view = s.view.set name (.str (some text)) := by
  by_cases hne : ∀ v, findvar s name = some v → v.type ≠ .str
  · rw [setsvar_of_ne hne, h.set_view hne]
    exact ⟨h, rfl⟩
  · push Not at hne
    obtain ⟨v, hv, htype⟩ := hne
    rw [setsvar_of_eq hv htype]
    constructor
    · exact h.assign fun w _ _ _ => (s.heap.used hp).2
    · refine h.view_assign hv htype ?_
      simp only [Var.entry, htype, Var.scnt, hp]

theorem Store.WellFormed.newvar (h : s.WellFormed) (type : VarType) (name : String) :
    (newvar s type name).2.WellFormed ∧ (newvar s type name).2.view = s.view.declare type name := by
  rw [Mp.newvar, TypedMap.declare, get_view]
  rcases hv : findvar s name with _ | v
  · refine ⟨⟨?_, ?_⟩, ?_⟩
    · rw [List.map_append, List.map_singleton]
      exact (List.nodup_append_comm.mp (List.nodup_cons.mpr ⟨findvar_eq_none.mp hv, h.names⟩))
    · intro v hv htype
      rcases List.mem_append.mp hv with hv | hv
      · exact h.addresses v hv htype
      · rw [List.mem_singleton.mp hv]
        exact s.heap.next_pos
    · rw [Store.view, List.map_append, List.map_singleton]
      cases type with
      | str => simp [Store.view, Var.entry, Entry.new, Var.scnt]
      | int => rfl
  · exact ⟨h, rfl⟩

/-- A successful `getvar` leaves a new block. -/
theorem call_getvar (hs : (call s (.getvar name)).2 = some s') :
    ∃ text, s' = { s with heap := s.heap.alloc text } := by
  rw [call, getvar] at hs
  rcases hget : getvarText s name with ⟨errors, f | text⟩ <;> rw [hget] at hs
  · cases hs
  · exact ⟨text, (Option.some.inj hs).symm⟩

theorem Store.WellFormed.call (h : s.WellFormed) {c : Call} (hs : (call s c).2 = some s') :
    s'.WellFormed ∧ s'.view = s.view.call c := by
  cases c with
  | newvar type name =>
    obtain rfl := Option.some.inj hs
    exact h.newvar type name
  | setivar name what =>
    obtain rfl := Option.some.inj hs
    exact h.setivar name what
  | setsvar name what =>
    obtain rfl := Option.some.inj hs
    have hset := (h.alloc what).setsvar name (s.heap.blocks_alloc_next what)
    rwa [h.view_alloc] at hset
  | getvar name =>
    obtain ⟨text, rfl⟩ := call_getvar hs
    exact ⟨h.alloc text, h.view_alloc text⟩

/-- What `getvar` finds in the map. -/
theorem getvarText_eq (s : Store) (name : String) :
    (getvarText s name).2 =
      match s.view.get name with
      | none => .ok []
      | some (.int n) => fill 128 (decimal n.toInt)
      | some (.str none) => .error .nullString
      | some (.str (some text)) => fill 128 text := by
  rw [getvarText, get_view]
  rcases hv : findvar s name with _ | v
  · rfl
  · dsimp only [Option.map_some, Var.entry]
    rcases htype : v.type with _ | _
    · dsimp only
      rcases s.heap.blocks v.scnt with _ | text <;> rfl
    · rfl

end Refinement

section History

/-- The first declarations of names, in their order. -/
def declarations : List Call → List (String × VarType)
  | [] => []
  | .newvar type name :: calls =>
    (name, type) :: (declarations calls).filter (·.1 ≠ name)
  | _ :: calls => declarations calls

def Call.declares (name : String) : Call → Bool
  | .newvar _ name' => name' = name
  | _ => false

/-- The calls from the first declaration of a name on. -/
def sinceDeclared (name : String) (calls : List Call) : List Call :=
  calls.dropWhile fun c => !c.declares name

def Call.intFor (name : String) : Call → Option (BitVec 32)
  | .setivar name' what => if name' = name then some what else none
  | _ => none

def Call.stringFor (name : String) : Call → Option Text
  | .setsvar name' what => if name' = name then some what else none
  | _ => none

/-- The integer that was set last since the declaration. -/
def lastInt (name : String) (calls : List Call) : BitVec 32 :=
  ((sinceDeclared name calls).filterMap (Call.intFor name)).getLast?.getD 0

/-- The string that was set last since the declaration, if any was. -/
def lastString (name : String) (calls : List Call) : Option Text :=
  ((sinceDeclared name calls).filterMap (Call.stringFor name)).getLast?

/-- The value of a variable after some calls. -/
def lastEntry (calls : List Call) (name : String) : VarType → Entry
  | .int => .int (lastInt name calls)
  | .str => .str (lastString name calls)

/-- The map after some calls, read off the calls. -/
def meaning (calls : List Call) : TypedMap :=
  (declarations calls).map fun d => (d.1, lastEntry calls d.1 d.2)

variable {name : String} {calls : List Call} {c : Call}

theorem mem_declarations :
    name ∈ (declarations calls).map Prod.fst ↔ ∃ c ∈ calls, c.declares name := by
  induction calls with
  | nil => simp [declarations]
  | cons c calls ih =>
    rw [List.exists_mem_cons_iff, ← ih]
    cases c with
    | newvar type name' =>
      by_cases h : name' = name
      · simp [declarations, Call.declares, h]
      · simp [declarations, Call.declares, h, Ne.symm h]
    | _ => simp [declarations, Call.declares]

theorem sinceDeclared_eq_nil :
    sinceDeclared name calls = [] ↔ name ∉ (declarations calls).map Prod.fst := by
  rw [sinceDeclared, List.dropWhile_eq_nil_iff, mem_declarations]
  simp

theorem sinceDeclared_append (h : name ∈ (declarations calls).map Prod.fst) :
    sinceDeclared name (calls ++ [c]) = sinceDeclared name calls ++ [c] := by
  have hne : ¬ (sinceDeclared name calls).isEmpty := by
    rw [List.isEmpty_iff, sinceDeclared_eq_nil]
    exact not_not.mpr h
  exact List.dropWhile_append.trans (if_neg hne)

theorem sinceDeclared_append_of_notMem (h : name ∉ (declarations calls).map Prod.fst) :
    sinceDeclared name (calls ++ [c]) = [c].dropWhile fun c => !c.declares name := by
  have hnil : (sinceDeclared name calls).isEmpty := by
    rwa [List.isEmpty_iff, sinceDeclared_eq_nil]
  exact List.dropWhile_append.trans (if_pos hnil)

theorem mem_declarations_newvar {type : VarType} {name' : String} :
    name ∈ (declarations (.newvar type name' :: calls)).map Prod.fst ↔
      name = name' ∨ name ∈ (declarations calls).map Prod.fst := by
  rw [mem_declarations, List.exists_mem_cons_iff, ← mem_declarations]
  simp [Call.declares, eq_comm]

theorem declarations_append_new {type : VarType} (h : name ∉ (declarations calls).map Prod.fst) :
    declarations (calls ++ [.newvar type name]) = declarations calls ++ [(name, type)] := by
  induction calls with
  | nil => rfl
  | cons c calls ih =>
    cases c with
    | newvar type' name' =>
      rw [mem_declarations_newvar, not_or] at h
      rw [List.cons_append, declarations, ih h.2, List.filter_append, declarations,
        List.filter_singleton, decide_eq_true (show (name, type).1 ≠ name' from h.1)]
      rfl
    | _ => exact ih h

theorem declarations_append_old {type : VarType} (h : name ∈ (declarations calls).map Prod.fst) :
    declarations (calls ++ [.newvar type name]) = declarations calls := by
  induction calls with
  | nil => cases h
  | cons c calls ih =>
    cases c with
    | newvar type' name' =>
      rw [List.cons_append, declarations, declarations]
      by_cases hd : name ∈ (declarations calls).map Prod.fst
      · rw [ih hd]
      · obtain rfl : name = name' := (mem_declarations_newvar.mp h).resolve_right hd
        rw [declarations_append_new hd, List.filter_append]
        simp
    | _ => exact ih h

theorem declarations_append (h : ∀ type name, c ≠ .newvar type name) :
    declarations (calls ++ [c]) = declarations calls := by
  induction calls with
  | nil =>
    cases c with
    | newvar type name => exact absurd rfl (h type name)
    | _ => rfl
  | cons c' calls ih =>
    cases c' with
    | newvar type' name' => rw [List.cons_append, declarations, ih, declarations]
    | _ => exact ih

theorem nodup_declarations : ((declarations calls).map Prod.fst).Nodup := by
  induction calls with
  | nil => exact List.nodup_nil
  | cons c calls ih =>
    cases c with
    | newvar type name =>
      rw [declarations, List.map_cons, List.nodup_cons]
      refine ⟨by simp, ?_⟩
      exact (List.filter_sublist.map Prod.fst).nodup ih
    | _ => exact ih

theorem lastInt_append (h : name ∈ (declarations calls).map Prod.fst) :
    lastInt name (calls ++ [c]) = (c.intFor name).getD (lastInt name calls) := by
  rw [lastInt, sinceDeclared_append h, List.filterMap_append]
  rcases hc : c.intFor name with _ | n
  · simp [lastInt, hc]
  · simp [hc]

theorem lastString_append (h : name ∈ (declarations calls).map Prod.fst) :
    lastString name (calls ++ [c]) = (c.stringFor name <|> lastString name calls) := by
  rw [lastString, sinceDeclared_append h, List.filterMap_append]
  rcases hc : c.stringFor name with _ | text
  · simp [lastString, hc]
  · simp [hc]

@[simp] theorem type_lastEntry (type : VarType) : (lastEntry calls name type).type = type := by
  cases type <;> rfl

theorem lastEntry_append {type : VarType} (h : name ∈ (declarations calls).map Prod.fst)
    (hint : c.intFor name = none) (hstr : c.stringFor name = none) :
    lastEntry (calls ++ [c]) name type = lastEntry calls name type := by
  cases type with
  | int => rw [lastEntry, lastInt_append h, hint, lastEntry, Option.getD_none]
  | str =>
    rw [lastEntry, lastString_append h, hstr, lastEntry]
    rfl

theorem isSome_get_meaning :
    ((meaning calls).get name).isSome ↔ name ∈ (declarations calls).map Prod.fst := by
  simp [TypedMap.get, meaning]

theorem meaning_append : meaning (calls ++ [c]) = (meaning calls).call c := by
  have hmem : ∀ d ∈ declarations calls, d.1 ∈ (declarations calls).map Prod.fst :=
    fun d hd => List.mem_map_of_mem hd
  cases c with
  | newvar type name =>
    have hold : ∀ d ∈ declarations calls,
        (d.1, lastEntry (calls ++ [.newvar type name]) d.1 d.2) = (d.1, lastEntry calls d.1 d.2) :=
      fun d hd => by rw [lastEntry_append (hmem d hd) rfl rfl]
    rw [TypedMap.call, TypedMap.declare]
    by_cases h : name ∈ (declarations calls).map Prod.fst
    · rw [if_pos (isSome_get_meaning.mpr h), meaning, declarations_append_old h]
      exact List.map_congr_left hold
    · rw [if_neg (isSome_get_meaning.not.mpr h), meaning, declarations_append_new h,
        List.map_append, List.map_congr_left hold, List.map_singleton, meaning]
      cases type with
      | int =>
        rw [lastEntry, lastInt, sinceDeclared_append_of_notMem h]
        simp [Call.declares, Call.intFor, Entry.new]
      | str =>
        rw [lastEntry, lastString, sinceDeclared_append_of_notMem h]
        simp [Call.declares, Call.stringFor, Entry.new]
  | setivar name what =>
    rw [meaning, declarations_append (by simp), TypedMap.call, TypedMap.set, meaning, List.map_map]
    refine List.map_congr_left fun d hd => ?_
    simp only [Function.comp_apply, type_lastEntry, type_int]
    by_cases h : d.1 = name ∧ d.2 = .int
    · rw [if_pos h, h.2, h.1, lastEntry, lastInt_append (h.1 ▸ hmem d hd)]
      simp [Call.intFor]
    · rw [if_neg h]
      rcases d with ⟨name', _ | _⟩
      · rw [lastEntry, lastString_append (hmem _ hd)]
        rfl
      · have hint : (Call.setivar name what).intFor name' = none :=
          if_neg fun hname => h ⟨hname.symm, rfl⟩
        rw [lastEntry_append (hmem _ hd) hint rfl]
  | setsvar name what =>
    rw [meaning, declarations_append (by simp), TypedMap.call, TypedMap.set, meaning, List.map_map]
    refine List.map_congr_left fun d hd => ?_
    simp only [Function.comp_apply, type_lastEntry, type_str]
    by_cases h : d.1 = name ∧ d.2 = .str
    · rw [if_pos h, h.2, h.1, lastEntry, lastString_append (h.1 ▸ hmem d hd)]
      simp [Call.stringFor]
    · rw [if_neg h]
      rcases d with ⟨name', _ | _⟩
      · have hstr : (Call.setsvar name what).stringFor name' = none :=
          if_neg fun hname => h ⟨hname.symm, rfl⟩
        rw [lastEntry_append (hmem _ hd) rfl hstr]
      · rw [lastEntry, lastInt_append (hmem _ hd)]
        rfl
  | getvar name =>
    rw [meaning, declarations_append (by simp), TypedMap.call, meaning]
    exact List.map_congr_left fun d hd => by rw [lastEntry_append (hmem d hd) rfl rfl]

end History

section Conformance

/-- A call that declares no new name and sets no declared variable of its type. -/
def Call.Rejected (declared : List (String × VarType)) : Call → Prop
  | .newvar _ name => name ∈ declared.map Prod.fst
  | .setivar name _ => (name, .int) ∉ declared
  | .setsvar name _ => (name, .str) ∉ declared
  | .getvar name => name ∉ declared.map Prod.fst

/-- The variable that a call may set. -/
def Call.target : Call → Option String
  | .setivar name _ => some name
  | .setsvar name _ => some name
  | _ => none

def Call.Short : Call → Prop
  | .setsvar _ what => what.length ≤ 127
  | _ => True

/-- The result of `getvar` is the address of a text, and the variables stay as they are. -/
def Returns (s : Store) (name : String) (text : Text) : Prop :=
  ∃ errors p s', getvar s name = (errors, .ok (p, s')) ∧ s'.heap.blocks p = some text ∧
    s'.varis = s.varis ∧ s'.view = s.view

/-- A store that behaves as a typed map after some calls. -/
structure Conforms (calls : List Call) (s : Store) : Prop where
  nodup : (s.varis.map Var.name).Nodup
  declared : s.varis.map (fun v => (v.name, v.type)) = declarations calls
  int : ∀ name, (name, .int) ∈ declarations calls →
    Returns s name (decimal (lastInt name calls).toInt)
  str : ∀ name text, (name, .str) ∈ declarations calls → lastString name calls = some text →
    Returns s name text
  rejected : ∀ c s', (call s c).2 = some s' → c.Rejected (declarations calls) →
    s'.varis = s.varis ∧ s'.view = s.view
  others : ∀ c s' name, (call s c).2 = some s' → c.target = some name → ∀ other ≠ name,
    findvar s' other = findvar s other ∧ s'.view.get other = s.view.get other
  returns : ∀ c, (∀ name, c = .getvar name → (name, .str) ∈ declarations calls →
    lastString name calls ≠ none) → ((call s c).2).isSome

variable {s s' : Store} {name : String} {calls : List Call}

theorem TypedMap.get_of_mem {m : TypedMap} {e : Entry} (hm : (m.map Prod.fst).Nodup)
    (h : (name, e) ∈ m) : m.get name = some e := by
  rw [TypedMap.get]
  rcases hfind : m.find? (·.1 = name) with _ | p
  · rw [List.find?_eq_none] at hfind
    simpa using hfind _ h
  · have hname : p.1 = name := by simpa using List.find?_some hfind
    rw [hfind, List.inj_on_of_nodup_map hm (List.mem_of_find?_eq_some hfind) h hname]
    rfl

theorem map_fst_meaning : (meaning calls).map Prod.fst = (declarations calls).map Prod.fst := by
  rw [meaning, List.map_map]
  rfl

theorem get_meaning {type : VarType} (h : (name, type) ∈ declarations calls) :
    (meaning calls).get name = some (lastEntry calls name type) := by
  apply TypedMap.get_of_mem
  · rw [map_fst_meaning]
    exact nodup_declarations
  · exact List.mem_map.mpr ⟨_, h, rfl⟩

theorem view_run {before : List Call} (hwf : s.WellFormed) (hview : s.view = meaning before)
    (h : Machine.run (fun s c => (call s c).2) s calls = some s') :
    s'.WellFormed ∧ s'.view = meaning (before ++ calls) := by
  induction calls generalizing s before with
  | nil =>
    obtain rfl := Option.some.inj h
    exact ⟨hwf, by rw [hview, List.append_nil]⟩
  | cons c calls ih =>
    obtain ⟨t, ht, h⟩ := Option.bind_eq_some_iff.mp h
    obtain ⟨hwf', hview'⟩ := hwf.call ht
    rw [hview, ← meaning_append] at hview'
    simpa using ih hwf' hview' h

theorem length_decimal_le (n : BitVec 32) : (decimal n.toInt).length ≤ 11 := by
  have hbound : n.toInt.natAbs < 10 ^ 10 := by
    have hlo := BitVec.le_toInt n
    have hhi := BitVec.toInt_lt (x := n)
    omega
  have hdigits : (Nat.toDigits 10 n.toInt.natAbs).length ≤ 10 :=
    (Nat.length_toDigits_le_iff (by decide) (by decide)).mpr hbound
  rw [decimal]
  split
  · exact Nat.succ_le_succ hdigits
  · exact Nat.le_succ_of_le hdigits

theorem Store.WellFormed.returns (h : s.WellFormed) {text : Text}
    (htext : (getvarText s name).2 = .ok text) : Returns s name text := by
  refine ⟨(getvarText s name).1, s.heap.next, { s with heap := s.heap.alloc text }, ?_, ?_, rfl, ?_⟩
  · rw [getvar, htext]
    rfl
  · exact s.heap.blocks_alloc_next text
  · exact h.view_alloc text

theorem isSome_call_getvar {text : Text} (htext : (getvarText s name).2 = .ok text) :
    ((call s (.getvar name)).2).isSome := by
  rw [call, getvar, htext]
  rfl

theorem fill_of_le {text : Text} (h : text.length ≤ 127) : fill 128 text = .ok text :=
  if_pos (Nat.succ_le_succ h)

theorem fill_of_not_le {text : Text} (h : ¬ text.length ≤ 127) :
    fill 128 text = .error .overflow :=
  if_neg fun hle => h (Nat.le_of_succ_le_succ hle)

theorem Store.WellFormed.rejected (h : s.WellFormed) {c : Call} (hs : (Mp.call s c).2 = some s')
    (hc : c.Rejected (s.varis.map fun v => (v.name, v.type))) :
    s'.varis = s.varis ∧ s'.view = s.view := by
  have hfound : ∀ {name v}, findvar s name = some v →
      (name, v.type) ∈ s.varis.map fun v => (v.name, v.type) := by
    intro name v hv
    obtain ⟨hmem, rfl⟩ := findvar_eq_some hv
    exact List.mem_map.mpr ⟨v, hmem, rfl⟩
  cases c with
  | newvar type name =>
    obtain rfl := Option.some.inj hs
    rw [Call.Rejected, List.map_map] at hc
    rw [Mp.newvar]
    rcases hv : findvar s name with _ | v
    · exact absurd hc (findvar_eq_none.mp hv)
    · exact ⟨rfl, rfl⟩
  | setivar name what =>
    obtain rfl := Option.some.inj hs
    rw [setivar_of_ne fun v hv htype => hc (htype ▸ hfound hv)]
    exact ⟨rfl, rfl⟩
  | setsvar name what =>
    obtain rfl := Option.some.inj hs
    have hne : ∀ v, findvar { s with heap := s.heap.alloc what } name = some v → v.type ≠ .str :=
      fun v hv htype => hc (htype ▸ hfound hv)
    rw [setsvar_of_ne hne]
    exact ⟨rfl, h.view_alloc what⟩
  | getvar name =>
    obtain ⟨text, rfl⟩ := call_getvar hs
    exact ⟨rfl, h.view_alloc text⟩

theorem find?_assign_of_ne {other : String} (hne : other ≠ name) (f : ℕ → ℕ) (vs : List Var) :
    (assign name f vs).find? (·.name = other) = vs.find? (·.name = other) := by
  induction vs with
  | nil => rfl
  | cons v vs ih =>
    rw [assign]
    split
    · rename_i hname
      simp [hname, Ne.symm hne]
    · rw [List.find?_cons, List.find?_cons, ih]

theorem findvar_setivar_of_ne {other : String} (hne : other ≠ name) (what : BitVec 32) :
    findvar (setivar s name what).2 other = findvar s other := by
  rw [setivar]
  split
  · rfl
  · split
    · rfl
    · exact find?_assign_of_ne hne _ _

theorem findvar_setsvar_of_ne {other : String} (hne : other ≠ name) (what : ℕ) :
    findvar (setsvar s name what).2 other = findvar s other := by
  rw [setsvar]
  split
  · rfl
  · split
    · rfl
    · exact find?_assign_of_ne hne _ _

theorem TypedMap.get_set_of_ne {m : TypedMap} {other : String} {e : Entry} (hne : other ≠ name) :
    (m.set name e).get other = m.get other := by
  have hkey : ∀ p : String × Entry,
      (if p.1 = name ∧ p.2.type = e.type then (name, e) else p).1 = p.1 := by
    intro p
    split
    · rename_i hp
      exact hp.1.symm
    · rfl
  rw [TypedMap.get, TypedMap.set, List.find?_map, TypedMap.get]
  simp only [Function.comp_def, hkey]
  rcases hfind : m.find? (·.1 = other) with _ | p
  · rw [hfind]
    rfl
  · have hp : p.1 = other := by simpa using List.find?_some hfind
    rw [hfind, Option.map_some, if_neg fun hand => hne (hp ▸ hand.1)]

theorem length_le_of_lastString {text : Text} (hshort : ∀ c ∈ calls, c.Short)
    (h : lastString name calls = some text) : text.length ≤ 127 := by
  obtain ⟨c, hc, htext⟩ := List.mem_filterMap.mp (List.mem_of_getLast? h)
  have hc : c ∈ calls := (List.dropWhile_suffix _).subset hc
  cases c with
  | setsvar name' what =>
    rw [Call.stringFor] at htext
    split at htext
    · obtain rfl := Option.some.inj htext
      exact hshort _ hc
    · cases htext
  | _ => cases htext

theorem getvarText_int (hview : s.view = meaning calls)
    (hname : (name, .int) ∈ declarations calls) :
    (getvarText s name).2 = .ok (decimal (lastInt name calls).toInt) := by
  rw [getvarText_eq, hview, get_meaning hname]
  exact fill_of_le ((length_decimal_le _).trans (by decide))

theorem getvarText_str {text : Text} (hview : s.view = meaning calls)
    (hshort : ∀ c ∈ calls, c.Short) (hname : (name, .str) ∈ declarations calls)
    (hlast : lastString name calls = some text) : (getvarText s name).2 = .ok text := by
  rw [getvarText_eq, hview, get_meaning hname, lastEntry, hlast]
  exact fill_of_le (length_le_of_lastString hshort hlast)

theorem getvarText_undeclared (hview : s.view = meaning calls)
    (hname : name ∉ (declarations calls).map Prod.fst) : (getvarText s name).2 = .ok [] := by
  rw [getvarText_eq, hview, Option.not_isSome_iff_eq_none.mp (isSome_get_meaning.not.mpr hname)]

theorem isSome_call {c : Call} (hview : s.view = meaning calls) (hshort : ∀ c ∈ calls, c.Short)
    (hc : ∀ name, c = .getvar name → (name, .str) ∈ declarations calls →
      lastString name calls ≠ none) : ((call s c).2).isSome := by
  cases c with
  | getvar name =>
    by_cases hname : name ∈ (declarations calls).map Prod.fst
    · obtain ⟨⟨name, type⟩, hmem, rfl⟩ := List.mem_map.mp hname
      cases type with
      | int => exact isSome_call_getvar (getvarText_int hview hmem)
      | str =>
        obtain ⟨text, hlast⟩ := Option.ne_none_iff_exists'.mp (hc name rfl hmem)
        exact isSome_call_getvar (getvarText_str hview hshort hmem hlast)
    · exact isSome_call_getvar (getvarText_undeclared hview hname)
  | _ => rfl

/-- After any calls the store behaves as a typed map. -/
theorem conforms_of_run (hshort : ∀ c ∈ calls, c.Short)
    (h : Machine.run (fun s c => (call s c).2) Store.empty calls = some s) : Conforms calls s := by
  obtain ⟨hwf, hview⟩ := view_run wellFormed_empty (show Store.empty.view = meaning [] from rfl) h
  rw [List.nil_append] at hview
  have hdeclared : s.varis.map (fun v => (v.name, v.type)) = declarations calls := by
    have hmap := congrArg (List.map fun p => (p.1, p.2.type)) hview
    simpa [Store.view, meaning, Function.comp_def] using hmap
  constructor
  · exact hwf.names
  · exact hdeclared
  · intro name hname
    exact hwf.returns (getvarText_int hview hname)
  · intro name text hname hlast
    exact hwf.returns (getvarText_str hview hshort hname hlast)
  · intro c s' hs hc
    rw [← hdeclared] at hc
    exact hwf.rejected hs hc
  · intro c s' name hs hc other hne
    have hview' : s'.view = s.view.call c := (hwf.call hs).2
    cases c with
    | newvar type name' => cases hc
    | getvar name' => cases hc
    | setivar name' what =>
      obtain rfl := Option.some.inj hc
      rw [hview', TypedMap.call, TypedMap.get_set_of_ne hne]
      obtain rfl := Option.some.inj hs
      exact ⟨findvar_setivar_of_ne hne what, rfl⟩
    | setsvar name' what =>
      obtain rfl := Option.some.inj hc
      rw [hview', TypedMap.call, TypedMap.get_set_of_ne hne]
      obtain rfl := Option.some.inj hs
      exact ⟨findvar_setsvar_of_ne hne _, rfl⟩
  · exact fun c hc => isSome_call hview hshort hc

def sampleCalls : List Call :=
  [.newvar .int "n", .newvar .str "t", .setivar "n" 7, .setsvar "n" ['a'], .newvar .int "t",
    .setsvar "t" ['b'], .setivar "n" 12, .setivar "m" 3, .getvar "n", .getvar "m"]

theorem conforms_sampleCalls :
    ∃ s, Machine.run (fun s c => (call s c).2) Store.empty sampleCalls = some s ∧
      Conforms sampleCalls s ∧ Returns s "n" ['1', '2'] ∧ Returns s "t" ['b'] := by
  have hshort : ∀ c ∈ sampleCalls, c.Short := by simp [sampleCalls, Call.Short]
  refine ⟨_, rfl, ?_⟩
  have hconforms := conforms_of_run hshort rfl
  refine ⟨hconforms, hconforms.int "n" (by decide), ?_⟩
  exact hconforms.str "t" ['b'] (by decide) (by decide)

end Conformance

end CollectedSources.Mp
