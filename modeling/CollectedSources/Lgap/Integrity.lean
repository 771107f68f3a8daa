import CollectedSources.Lgap.Ranges

/-! # Integrity of the commands

A command should carry what the command line asks for, and for the rest what a
response says that was received as a whole. Two things come between: buffers of
which only a part was received are accepted, and of an argument only the low
byte is looked at.
-/

namespace CollectedSources.Lgap

open Process

/-- The last argument of each option of the command line. -/
structure Arguments where
  onoff : Option ℤ := none
  fan : Option ℤ := none
  mode : Option ℤ := none
  plasma : Option ℤ := none
  swing : Option ℤ := none
  temp : Option ℤ := none
  deriving DecidableEq, Repr

def Arguments.add (w : Arguments) : Opt → Arguments
  | .off => { w with onoff := some 0 }
  | .on => { w with onoff := some 1 }
  | .fan arg => { w with fan := some arg }
  | .mode arg => { w with mode := some arg }
  | .plasma arg => { w with plasma := some arg }
  | .swing arg => { w with swing := some arg }
  | .temp arg => { w with temp := some arg }
  | .other => w

def arguments (args : List Opt) : Arguments := args.foldl Arguments.add {}

/-- `!!arg`. -/
def truth (arg : ℤ) : ℤ := if arg ≠ 0 then 1 else 0

/-- The settings of a command are those asked for: a speed and a mode of the range, and the nearest
temperature of the device; the others are those of a response. -/
structure Query.Follows (q : Query) (w : Arguments) (r : Response) : Prop where
  fanSpeed : (q.fanSpeed.toNat : ℤ) = (w.fan.filter fanSetting.InRange).getD r.fanSpeed.toNat
  mode : (q.mode.toNat : ℤ) = (w.mode.filter modeSetting.InRange).getD r.mode.toNat
  on : (q.on.toNat : ℤ) = w.onoff.getD r.on.toNat
  plasma : (q.plasma.toNat : ℤ) = (w.plasma.map truth).getD r.plasma.toNat
  autoSwing : (q.autoSwing.toNat : ℤ) = (w.swing.map truth).getD r.autoSwing.toNat
  temp : (q.temp.toNat : ℤ) = (w.temp.map fun arg => clampC arg - 15).getD r.temp.toNat

/-- Every command comes after a response that was received as a whole, and follows it. -/
def Integrity (w : Arguments) (reads : List Read) (queries : List Query) : Prop :=
  ∀ (i : ℕ) (q : Query), queries[i]? = some q → q.exe = 1 →
    ∃ j < i, ∃ r : Response, reads[j]? = some (.data 24 r) ∧ r.Valid ∧ q.Follows w r

/-- An argument out of the range has no effect, unless its low byte is in the range and is not what
the response says. -/
def Setting.Kept (t : Setting) (v : ℤ) (r : Response) : Prop :=
  t.InRange v ∨ ¬ t.InRange (Int8.ofInt v).toInt ∨ (Int8.ofInt v).toInt = (t.reported r).toNat

instance (t : Setting) (v : ℤ) (r : Response) : Decidable (t.Kept v r) :=
  inferInstanceAs (Decidable (_ ∨ _))

/-- The low bytes of the arguments lead to the same settings. -/
structure Arguments.Kept (w : Arguments) (r : Response) : Prop where
  fan : ∀ v ∈ w.fan, fanSetting.Kept v r
  mode : ∀ v ∈ w.mode, modeSetting.Kept v r
  temp : ∀ v ∈ w.temp, LowByteAgrees v

/-- The option sets the flag. -/
def Opt.Sets : Opt → Prop
  | .fan arg => fanSetting.InRange (Int8.ofInt arg).toInt
  | .mode arg => modeSetting.InRange (Int8.ofInt arg).toInt
  | .other => False
  | _ => True

/-- The first response whose checksum is right, if the loop gets to one, is a whole read, and the
low bytes of the arguments do for it. -/
def FirstWhole (w : Arguments) : Response → List Read → Prop
  | _, [] => True
  | r, read :: reads =>
    read.Ends ∨ if (read.overlay r).Valid then ∃ r', read = .data 24 r' ∧ w.Kept r'
      else FirstWhole w (read.overlay r) reads

section Options

variable {o o' : Options} {w : Arguments} {t : Setting}

/-- What is stored of an argument with a range. -/
def Setting.store (t : Setting) (v : ℤ) : Int8 :=
  if t.InRange (Int8.ofInt v).toInt then Int8.ofInt v else -1

/-- The variables of the options after some arguments. -/
structure Options.Stores (o : Options) (w : Arguments) : Prop where
  onoff : o.onoff = (w.onoff.map Int8.ofInt).getD (-1)
  fan : o.fan = (w.fan.map fanSetting.store).getD (-1)
  mode : o.mode = (w.mode.map modeSetting.store).getD (-1)
  plasma : o.plasma = (w.plasma.map fun v => Int8.ofInt (truth v)).getD (-1)
  swing : o.swing = (w.swing.map fun v => Int8.ofInt (truth v)).getD (-1)
  temp : o.temp = (w.temp.map fun v => Int8.ofInt (cToTemp (BitVec.ofInt 8 v))).getD (-1)
  onoff_mem : ∀ v ∈ w.onoff, v = 0 ∨ v = 1

theorem ofInt_truth (v : ℤ) : Int8.ofInt (truth v) = if v ≠ 0 then 1 else 0 := by
  unfold truth
  split <;> rfl

theorem Options.Stores.parse (h : o.Stores w) {opt : Opt} (hp : o.parse opt = some o') :
    o'.Stores (w.add opt) := by
  cases opt with
  | off =>
    obtain rfl := Option.some.inj hp
    exact { h with onoff := rfl, onoff_mem := by rintro _ ⟨⟩; exact .inl rfl }
  | on =>
    obtain rfl := Option.some.inj hp
    exact { h with onoff := rfl, onoff_mem := by rintro _ ⟨⟩; exact .inr rfl }
  | fan arg =>
    obtain rfl := Option.some.inj hp
    have hrange := @Setting.not_outside_iff (Int8.ofInt arg) 1 6
    by_cases hr : fanSetting.InRange (Int8.ofInt arg).toInt
    · rw [if_neg (hrange.mpr hr)]
      exact { h with fan := (if_pos hr).symm }
    · rw [if_pos (not_not.mp (mt hrange.mp hr))]
      exact { h with fan := (if_neg hr).symm }
  | mode arg =>
    obtain rfl := Option.some.inj hp
    have hrange := @Setting.not_outside_iff (Int8.ofInt arg) 0 4
    by_cases hr : modeSetting.InRange (Int8.ofInt arg).toInt
    · rw [if_neg (hrange.mpr hr)]
      exact { h with mode := (if_pos hr).symm }
    · rw [if_pos (not_not.mp (mt hrange.mp hr))]
      exact { h with mode := (if_neg hr).symm }
  | plasma arg =>
    obtain rfl := Option.some.inj hp
    exact { h with plasma := (ofInt_truth arg).symm }
  | swing arg =>
    obtain rfl := Option.some.inj hp
    exact { h with swing := (ofInt_truth arg).symm }
  | temp arg =>
    obtain rfl := Option.some.inj hp
    exact { h with temp := rfl }
  | other => cases hp

theorem stores_of_parseOptions {args : List Opt} (h : parseOptions args = some o) :
    o.Stores (arguments args) := by
  have hinit : ({} : Options).Stores {} := ⟨rfl, rfl, rfl, rfl, rfl, rfl, by rintro _ ⟨⟩⟩
  exact Machine.run_foldl (fun _ _ _ _ _ hparse hw => hw.parse hparse) h hinit

theorem Setting.Parses.set_iff (ht : t.Parses) {v : ℤ} (hp : o.parse (t.opt v) = some o') :
    o'.set = true ↔ o.set = true ∨ t.InRange (Int8.ofInt v).toInt := by
  by_cases hr : t.InRange (Int8.ofInt v).toInt
  · obtain ⟨o'', hp', -, hset⟩ := ht.inRange o v hr
    obtain rfl := Option.some.inj (hp.symm.trans hp')
    exact iff_of_true hset (.inr hr)
  · obtain ⟨o'', hp', -, hset⟩ := ht.outside o v hr
    obtain rfl := Option.some.inj (hp.symm.trans hp')
    rw [hset, or_iff_left hr]

theorem set_of_parse {opt : Opt} (hp : o.parse opt = some o') :
    o'.set = true ↔ o.set = true ∨ opt.Sets := by
  cases opt with
  | fan arg => exact Setting.parses_fan.set_iff hp
  | mode arg => exact Setting.parses_mode.set_iff hp
  | other => cases hp
  | _ =>
    obtain rfl := Option.some.inj hp
    simp [Opt.Sets]

theorem set_of_parseOptions {args : List Opt} (h : parseOptions args = some o) :
    o.set = true ↔ ∃ opt ∈ args, opt.Sets := by
  have hrun : ∀ o₀ : Options, Machine.run Options.parse o₀ args = some o →
      (o.set = true ↔ o₀.set = true ∨ ∃ opt ∈ args, opt.Sets) := by
    clear h
    induction args with
    | nil =>
      rintro o₀ h
      obtain rfl := Option.some.inj h
      simp
    | cons opt args ih =>
      rintro o₀ h
      obtain ⟨o₁, hparse, h⟩ := Option.bind_eq_some_iff.mp h
      rw [ih o₁ h, set_of_parse hparse, or_assoc]
      simp
  simpa using hrun {} h

end Options

section Commands

variable {o : Options} {w : Arguments} {t : Setting} {q : Query} {r : Response}

theorem toNat_choose_of_nonneg {v n : ℕ} {x : ℤ} (hx : 0 ≤ x ∧ x < 2 ^ n) (hn : n ≤ 7) (hv : v ≤ n)
    (value : BitVec v) : ((choose n (Int8.ofInt x) value).toNat : ℤ) = x := by
  have hle : (2 : ℤ) ^ n ≤ 2 ^ 7 := pow_le_pow_right₀ (by decide) hn
  have hint : (Int8.ofInt x).toInt = x := Int8.toInt_ofInt_of_le (by omega) (by omega)
  rw [toNat_choose (by rw [hint]; exact hx.2) hv, requested, if_pos, hint]
  rw [ge_iff_le, Int8.le_iff_toInt_le, hint]
  exact hx.1

theorem toNat_choose_neg {v n : ℕ} (hv : v ≤ n) (value : BitVec v) :
    ((choose n (-1) value).toNat : ℤ) = value.toNat := by
  have hlt : (-1 : Int8).toInt < 2 ^ n :=
    lt_of_lt_of_le (by decide) (by positivity : (0 : ℤ) ≤ 2 ^ n)
  rw [toNat_choose hlt hv, requested, if_neg (by decide)]

theorem toNat_choose_map {v n : ℕ} {arg : Option ℤ} {f : ℤ → ℤ} (hn : n ≤ 7) (hv : v ≤ n)
    (hf : ∀ x ∈ arg, 0 ≤ f x ∧ f x < 2 ^ n) (value : BitVec v) :
    ((choose n ((arg.map fun x => Int8.ofInt (f x)).getD (-1)) value).toNat : ℤ) =
      (arg.map f).getD value.toNat := by
  cases arg with
  | none => exact toNat_choose_neg hv value
  | some x => exact toNat_choose_of_nonneg (hf x rfl) hn hv value

theorem Setting.Parses.kept_iff (ht : t.Parses) (arg : Option ℤ) (r : Response) :
    ((choose 3 ((arg.map t.store).getD (-1)) (t.reported r)).toNat : ℤ) =
      (arg.filter t.InRange).getD (t.reported r).toNat ↔ ∀ v ∈ arg, t.Kept v r := by
  cases arg with
  | none => exact iff_of_true (toNat_choose_neg le_rfl _) (by rintro _ ⟨⟩)
  | some v =>
    have hbyte : ((choose 3 (t.store v) (t.reported r)).toNat : ℤ) =
        if t.InRange (Int8.ofInt v).toInt then (Int8.ofInt v).toInt else (t.reported r).toNat := by
      unfold Setting.store
      split
      · rename_i hr
        have hrange := toNat_choose_of_nonneg (n := 3) ⟨ht.first_nonneg.trans hr.1,
          hr.2.trans_lt ht.last_lt⟩ (by decide) le_rfl (t.reported r)
        rwa [Int8.ofInt_toInt] at hrange
      · exact toNat_choose_neg le_rfl _
    rw [Option.map_some, Option.getD_some, hbyte]
    simp only [Option.mem_some_iff, forall_eq', Setting.Kept]
    by_cases hv : t.InRange v
    · have hlow := Setting.toInt_ofInt_of_inRange ht hv
      rw [Option.filter_some_pos (by simpa using hv), hlow, if_pos hv]
      simp [hv]
    · rw [Option.filter_some_neg (by simpa using hv), Option.getD_none]
      by_cases hr : t.InRange (Int8.ofInt v).toInt
      · rw [if_pos hr]
        tauto
      · rw [if_neg hr]
        tauto

theorem cToTemp_eq (v : ℤ) : cToTemp (BitVec.ofInt 8 v) = clampC (v % 256) - 15 := by
  have hv : ((BitVec.ofInt 8 v).toNat : ℤ) = v % 256 := by
    rw [BitVec.toNat_ofInt]
    exact Int.toNat_of_nonneg (Int.emod_nonneg v (by decide))
  rw [← hv]
  unfold cToTemp clampC
  dsimp only
  split_ifs <;> omega

theorem clampC_bounds (v : ℤ) : 18 ≤ clampC v ∧ clampC v ≤ 30 := by
  unfold clampC
  omega

theorem temp_iff (arg : Option ℤ) (r : Response) :
    ((choose 5 ((arg.map fun v => Int8.ofInt (cToTemp (BitVec.ofInt 8 v))).getD (-1))
        r.temp).toNat : ℤ) = (arg.map fun v => clampC v - 15).getD r.temp.toNat ↔
      ∀ v ∈ arg, LowByteAgrees v := by
  have hbounds : ∀ v ∈ arg, 0 ≤ cToTemp (BitVec.ofInt 8 v) ∧
      cToTemp (BitVec.ofInt 8 v) < 2 ^ 5 := by
    intro v _
    have := clampC_bounds (v % 256)
    rw [cToTemp_eq]
    omega
  rw [toNat_choose_map (by decide) (by decide) hbounds]
  cases arg with
  | none => simp
  | some v =>
    simp only [Option.map_some, Option.getD_some, Option.mem_some_iff, forall_eq', cToTemp_eq,
      ← clampC_emod_iff]
    omega

theorem truth_bounds (v : ℤ) : 0 ≤ truth v ∧ truth v < 2 ^ 1 := by
  unfold truth
  split <;> decide

/-- A command follows a response exactly if the low bytes do for it. -/
theorem follows_command_iff (h : o.Stores w) (q : Query) (r : Response) :
    (q.command o r).Follows w r ↔ w.Kept r := by
  have hfan : ((q.command o r).fanSpeed.toNat : ℤ) =
      (w.fan.filter fanSetting.InRange).getD r.fanSpeed.toNat ↔
        ∀ v ∈ w.fan, fanSetting.Kept v r := by
    rw [← Setting.parses_fan.kept_iff, ← h.fan]
    rfl
  have hmode : ((q.command o r).mode.toNat : ℤ) =
      (w.mode.filter modeSetting.InRange).getD r.mode.toNat ↔
        ∀ v ∈ w.mode, modeSetting.Kept v r := by
    rw [← Setting.parses_mode.kept_iff, ← h.mode]
    rfl
  have htemp : ((q.command o r).temp.toNat : ℤ) =
      (w.temp.map fun v => clampC v - 15).getD r.temp.toNat ↔ ∀ v ∈ w.temp, LowByteAgrees v := by
    rw [← temp_iff w.temp r, ← h.temp]
    rfl
  constructor
  · intro hq
    exact ⟨hfan.mp hq.fanSpeed, hmode.mp hq.mode, htemp.mp hq.temp⟩
  · intro hk
    refine ⟨hfan.mpr hk.fan, hmode.mpr hk.mode, ?_, ?_, ?_, htemp.mpr hk.temp⟩
    · have hon : ∀ v ∈ w.onoff, (0 : ℤ) ≤ id v ∧ id v < 2 ^ 1 := by
        intro v hv
        rcases h.onoff_mem v hv with rfl | rfl <;> decide
      have hmap := toNat_choose_map (n := 1) (by decide) le_rfl hon r.on
      rw [Option.map_id_fun, id_eq] at hmap
      rw [← hmap]
      change ((choose 1 o.onoff r.on).toNat : ℤ) = _
      rw [h.onoff]
      rfl
    · rw [← toNat_choose_map (n := 1) (by decide) le_rfl fun v _ => truth_bounds v, ← h.plasma]
      rfl
    · rw [← toNat_choose_map (n := 1) (by decide) le_rfl fun v _ => truth_bounds v, ← h.swing]
      rfl

end Commands

section Runs

variable {o : Options} {w : Arguments} {s : State} {read : Read} {n : ℕ} {r : Response} {q : Query}

theorem overlay_whole (bytes r : Response) : (Read.data 24 bytes).overlay r = bytes := by
  funext i
  exact if_pos i.isLt

theorem mem_frames {events : List Event} : q ∈ frames events ↔ .write q ∈ events := by
  simp only [frames, List.mem_filterMap]
  constructor
  · rintro ⟨e, he, hq⟩
    cases e with
    | write q' =>
      obtain rfl := Option.some.inj hq
      exact he
    | _ => cases hq
  · intro h
    exact ⟨_, h, rfl⟩

theorem follows_run (hset : s.set = false) (hs : s.query.exe = 1 → s.query.Follows w r)
    (reads : List Read) : ∀ q ∈ frames (run (round o) s reads).1, q.exe = 1 → q.Follows w r := by
  intro q hq
  refine run_forall (I := fun s => s.set = false ∧ (s.query.exe = 1 → s.query.Follows w r))
    (Q := fun e => ∀ q, e = .write q → q.exe = 1 → q.Follows w r) ?_ ⟨hset, hs⟩ reads _
    (mem_frames.mp hq) q rfl
  rintro s read ⟨hset, hs⟩
  obtain ⟨events, hf, hr⟩ := round_cases o s read
  have hev : ∀ e ∈ events, ∀ q, e = .write q → q.exe = 1 → q.Follows w r := by
    rintro _ he q rfl
    obtain rfl : q = s.query := by simpa [hf] using mem_frames.mpr he
    exact hs
  rcases hr with ⟨-, hr⟩ | ⟨-, -, hr⟩ | ⟨-, -, hr⟩
  · simpa [hr] using hev
  · rw [hr]
    refine ⟨hev, ?_⟩
    rintro _ ⟨rfl⟩
    exact ⟨hset, hs⟩
  · rw [hr]
    refine ⟨hev, ?_⟩
    rintro _ ⟨rfl⟩
    simp only [State.accept, hset, Bool.false_eq_true, if_false]
    split
    · exact ⟨rfl, fun h => absurd h (by simp [Query.sum])⟩
    · exact ⟨rfl, hs⟩

theorem integrity_cons_iff {reads : List Read} {queries : List Query} (hq : q.exe ≠ 1)
    (hr : ¬ (read.overlay r).Valid) :
    Integrity w (read :: reads) (q :: queries) ↔ Integrity w reads queries := by
  constructor
  · intro h i q' hq' he
    obtain ⟨_ | j, hj, r', hread, hv, hfollows⟩ := h (i + 1) q' hq' he
    · obtain rfl := Option.some.inj hread
      rw [overlay_whole] at hr
      exact absurd hv hr
    · exact ⟨j, by omega, r', hread, hv, hfollows⟩
  · rintro h (_ | i) q' hq' he
    · obtain rfl := Option.some.inj hq'
      exact absurd he hq
    · obtain ⟨j, hj, hrest⟩ := h i q' hq' he
      exact ⟨j + 1, by omega, hrest⟩

theorem firstWhole_of_ends (he : read.Ends) (reads : List Read) :
    FirstWhole w r (read :: reads).dropLast := by
  cases reads with
  | nil => trivial
  | cons => exact Or.inl he

theorem firstWhole_of_not_valid (he : ¬ read.Ends) (hv : ¬ (read.overlay r).Valid)
    (reads : List Read) :
    FirstWhole w r (read :: reads).dropLast ↔ FirstWhole w (read.overlay r) reads.dropLast := by
  cases reads with
  | nil => rfl
  | cons => simp only [List.dropLast_cons_cons, FirstWhole, he, hv, false_or, if_false]

theorem firstWhole_of_valid (he : ¬ read.Ends) (hv : (read.overlay r).Valid) (reads : List Read) :
    FirstWhole w r (read :: reads).dropLast ↔
      reads = [] ∨ ∃ r', read = .data 24 r' ∧ w.Kept r' := by
  cases reads with
  | nil => simp [FirstWhole]
  | cons => simp [FirstWhole, he, hv]

theorem integrity_accept_iff (hw : o.Stores w) (hset : s.set = true) (hexe : s.query.exe ≠ 1)
    (hv : (read.overlay s.resp).Valid) (reads : List Read) :
    Integrity w (read :: reads) (s.query :: frames (run (round o)
      ({ s with resp := read.overlay s.resp }.accept o) reads).1) ↔
      reads = [] ∨ ∃ r', read = .data 24 r' ∧ w.Kept r' := by
  have haccept : { s with resp := read.overlay s.resp }.accept o =
      ⟨s.query.command o (read.overlay s.resp), read.overlay s.resp, false⟩ := if_pos hset
  rw [haccept]
  constructor
  · intro h
    rcases reads with _ | ⟨read', reads⟩
    · exact Or.inl rfl
    · obtain ⟨j, hj, r', hread, -, hfollows⟩ := h 1 _ (frames_run_head o _ read' reads) rfl
      obtain rfl : j = 0 := by omega
      obtain rfl := Option.some.inj hread
      rw [overlay_whole] at hfollows
      exact Or.inr ⟨r', rfl, (follows_command_iff hw s.query r').mp hfollows⟩
  · rintro (rfl | ⟨r', rfl, hk⟩) (_ | i) q hq he
    · obtain rfl := Option.some.inj hq
      exact absurd he hexe
    · simp [frames] at hq
    · obtain rfl := Option.some.inj hq
      exact absurd he hexe
    · rw [overlay_whole] at hv hq
      rw [List.getElem?_cons_succ] at hq
      have hcommand : (s.query.command o r').Follows w r' :=
        (follows_command_iff hw s.query r').mpr hk
      have hfollows : q.Follows w r' :=
        follows_run rfl (fun _ => hcommand) reads q (List.mem_of_getElem? hq) he
      exact ⟨0, by omega, r', rfl, hv, hfollows⟩

theorem integrity_run_iff (hw : o.Stores w) (h : s.Sound o.set 0) (reads : List Read) :
    Integrity w reads (frames (run (round o) s reads).1) ↔
      (o.set = true → FirstWhole w s.resp reads.dropLast) := by
  induction reads generalizing s with
  | nil => simp [Integrity, frames, FirstWhole]
  | cons read reads ih =>
    have hexe : s.query.exe ≠ 1 := fun he => absurd (h.sent.mp he).2 (by decide)
    obtain ⟨events, hev, ⟨he, hr⟩ | ⟨he, hv, hr⟩ | ⟨he, hv, hr⟩⟩ := round_cases o s read
    · rw [frames_run_none hev hr]
      refine iff_of_true ?_ fun _ => firstWhole_of_ends he reads
      rintro (_ | i) q hq hq1
      · obtain rfl := Option.some.inj hq
        exact absurd hq1 hexe
      · simp at hq
    · rw [frames_run_some hev hr, integrity_cons_iff hexe hv, ih (h.receive _),
        firstWhole_of_not_valid he hv]
    · rw [frames_run_some hev hr, firstWhole_of_valid he hv]
      cases hset : o.set with
      | true =>
        have hs : s.set = true := h.pending.mpr ⟨hset, rfl⟩
        simpa using integrity_accept_iff hw hs hexe hv reads
      | false =>
        refine iff_of_true ?_ (by simp)
        rintro (_ | i) q hq hq1
        · obtain rfl := Option.some.inj hq
          exact absurd hq1 hexe
        · have hsent := (frames_run ((h.receive _).accept o) reads i q hq).2.mp hq1
          simp [hset] at hsent

/-- Commands have integrity iff no option sets the flag, or the first accepted response, unless it
is the last round's, is a whole read and the low bytes of the arguments do for it. -/
theorem integrity_main_iff {args : List Opt} (hargs : parseOptions args = some o) (unit : Byte)
    (reads : List Read) :
    Integrity (arguments args) (reads.take 10) (frames (main o unit reads).1) ↔
      ((∃ opt ∈ args, opt.Sets) →
        FirstWhole (arguments args) (fun _ => 0) (reads.take 10).dropLast) := by
  rw [← set_of_parseOptions hargs]
  exact integrity_run_iff (stores_of_parseOptions hargs) (sound_start o unit) (reads.take 10)

theorem integrity_main_sample :
    parseOptions [.on, .fan 3] = some { onoff := 1, fan := 3, set := true } ∧
      Integrity (arguments [.on, .fan 3]) (sampleReads 24)
        (frames (main { onoff := 1, fan := 3, set := true } 0 (sampleReads 24)).1) := by
  have hargs : parseOptions [.on, .fan 3] = some { onoff := 1, fan := 3, set := true } := by decide
  refine ⟨hargs, (integrity_main_iff hargs 0 (sampleReads 24)).mpr fun _ => Or.inr ?_⟩
  have hv : ((Read.data 24 sample).overlay fun _ => 0).Valid := by decide
  rw [if_pos hv]
  refine ⟨sample, rfl, ?_, by rintro _ ⟨⟩, by rintro _ ⟨⟩⟩
  rintro _ ⟨⟩
  decide

/-- A command is sent although the last byte of the response is missing, and one asks for the lowest
speed because of `-f 257`. -/
theorem short_response_commands :
    (parseOptions [.on] = some { onoff := 1, set := true } ∧
      ¬ Integrity (arguments [.on]) (sampleReads 23)
        (frames (main { onoff := 1, set := true } 0 (sampleReads 23)).1)) ∧
    parseOptions [.fan 257] = some { fan := 1, set := true } ∧
      ¬ Integrity (arguments [.fan 257]) (sampleReads 24)
        (frames (main { fan := 1, set := true } 0 (sampleReads 24)).1) := by
  refine ⟨⟨by decide, fun h => ?_⟩, by decide, fun h => ?_⟩
  · obtain ⟨j, hj, r, hread, -⟩ := h 1 _ rfl (by decide)
    obtain rfl : j = 0 := by omega
    cases hread
  · obtain ⟨j, hj, r, hread, -, hfollows⟩ := h 1 _ rfl (by decide)
    obtain rfl : j = 0 := by omega
    cases hread
    exact absurd hfollows.fanSpeed (by decide)

end Runs

end CollectedSources.Lgap
