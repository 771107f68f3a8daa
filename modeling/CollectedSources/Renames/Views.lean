import CollectedSources.Machine.Table
import Mathlib.Data.Int.Notation

/-! # The views of the change database

The database records which commits add, rename and remove which files, the
tag each change first appears in and the branches commits are backported to.
The views list the changes of each kind for every branch. All but the one of
files added by backports join the right rows; that one selects the removals.
-/

namespace CollectedSources.Views

open Table

abbrev Name := List Char

structure Tag where
  id : ℤ
  name : Name
  deriving DecidableEq, Repr

structure Branch where
  id : ℤ
  name : Name
  tag : ℤ
  deriving DecidableEq, Repr

structure Sha where
  id : ℤ
  name : Name
  deriving DecidableEq, Repr

structure File where
  id : ℤ
  name : Name
  deriving DecidableEq, Repr

structure Backport where
  id : ℤ
  sha : ℤ
  branch : ℤ
  deriving DecidableEq, Repr

structure Change where
  id : ℤ
  sha : ℤ
  fromFile : Option ℤ
  toFile : Option ℤ
  tag : Option ℤ
  deriving DecidableEq, Repr

def Change.Adds (c : Change) (f : File) : Prop := c.fromFile = none ∧ c.toFile = some f.id

def Change.Removes (c : Change) (f : File) : Prop := c.fromFile = some f.id ∧ c.toFile = none

def Change.Renames (c : Change) (f g : File) : Prop :=
  c.fromFile = some f.id ∧ c.toFile = some g.id

/-- Contents of the tables that satisfy the constraints of the schema. -/
structure DB where
  tag : List Tag
  branch : List Branch
  sha : List Sha
  file : List File
  backport : List Backport
  change : List Change
  tag_id : Key tag Tag.id
  tag_name : Key tag Tag.name
  branch_id : Key branch Branch.id
  branch_name : Key branch Branch.name
  sha_id : Key sha Sha.id
  sha_name : Key sha Sha.name
  file_id : Key file File.id
  file_name : Key file File.name
  backport_id : Key backport Backport.id
  change_id : Key change Change.id
  branch_tag : ∀ b ∈ branch, ∃ t ∈ tag, t.id = b.tag
  backport_sha : ∀ bp ∈ backport, ∃ s ∈ sha, s.id = bp.sha
  backport_branch : ∀ bp ∈ backport, ∃ b ∈ branch, b.id = bp.branch
  change_sha : ∀ c ∈ change, ∃ s ∈ sha, s.id = c.sha
  change_from : ∀ c ∈ change, ∀ i ∈ c.fromFile, ∃ f ∈ file, f.id = i
  change_to : ∀ c ∈ change, ∀ i ∈ c.toFile, ∃ f ∈ file, f.id = i
  change_tag : ∀ c ∈ change, ∀ i ∈ c.tag, ∃ t ∈ tag, t.id = i

/-- A row of the views of added and of removed files. -/
structure Row where
  branch : Name
  file : Name
  sha : Name
  deriving DecidableEq, Repr

/-- A row of the views of renamed files. -/
structure RenamedRow extends Row where
  newFile : Name
  deriving DecidableEq, Repr

inductive Source | base | backport
  deriving DecidableEq, Repr

namespace DB

variable (db : DB)

/-- The joins shared by the base views, behind the tables that select the changes. -/
def joinBase {α : Type} (rows : List α) (change : α → Change) :
    List (((α × Sha) × Tag) × Branch) :=
  join (join (join rows db.sha fun r sha => sha.id = (change r).sha)
    db.tag fun r tag => some tag.id = (change r.1).tag)
    db.branch fun r branch => branch.tag = r.2.id

def baseAddedView : List Row :=
  (db.joinBase
    (join db.file db.change fun file change =>
      change.toFile = some file.id ∧ change.fromFile = none) Prod.snd).map
    fun (((((file, _), sha), _), branch)) => ⟨branch.name, file.name, sha.name⟩

def baseRenamedView : List RenamedRow :=
  (db.joinBase
    (join (join db.file db.change fun file change =>
        change.toFile ≠ none ∧ change.fromFile = some file.id)
      db.file fun r newFile => r.2.toFile = some newFile.id) (fun r => r.1.2)).map
    fun ((((((file, _), newFile), sha), _), branch)) =>
      ⟨⟨branch.name, file.name, sha.name⟩, newFile.name⟩

def baseRemovedView : List Row :=
  (db.joinBase
    (join db.file db.change fun file change =>
      change.toFile = none ∧ change.fromFile = some file.id) Prod.snd).map
    fun (((((file, _), sha), _), branch)) => ⟨branch.name, file.name, sha.name⟩

/-- The joins shared by the backport views, before the tables that select the changes. -/
def joinBackports : List (((Backport × Branch) × Change) × Sha) :=
  join (join (join db.backport db.branch fun backport branch => branch.id = backport.branch)
    db.change fun r change => change.sha = r.1.sha)
    db.sha fun r sha => sha.id = r.2.sha

def backportsAddedView : List Row :=
  (join db.joinBackports db.file fun r file =>
    some file.id = r.1.2.fromFile ∧ r.1.2.toFile = none).map
    fun (((((_, branch), _), sha), file)) => ⟨branch.name, file.name, sha.name⟩

def backportsRenamedView : List RenamedRow :=
  (join (join db.joinBackports db.file fun r file =>
      some file.id = r.1.2.fromFile ∧ r.1.2.toFile ≠ none)
    db.file fun r newFile => r.1.1.2.toFile = some newFile.id).map
    fun ((((((_, branch), _), sha), file), newFile)) =>
      ⟨⟨branch.name, file.name, sha.name⟩, newFile.name⟩

def backportsRemovedView : List Row :=
  (join db.joinBackports db.file fun r file =>
    some file.id = r.1.2.fromFile ∧ r.1.2.toFile = none).map
    fun (((((_, branch), _), sha), file)) => ⟨branch.name, file.name, sha.name⟩

/-- `UNION ALL` of two views, each with its source. -/
def union {α : Type} (base backports : List α) : List (α × Source) :=
  base.map (fun r => (r, Source.base)) ++ backports.map (fun r => (r, Source.backport))

def addedView : List (Row × Source) := union db.baseAddedView db.backportsAddedView

def renamedView : List (RenamedRow × Source) := union db.baseRenamedView db.backportsRenamedView

def removedView : List (Row × Source) := union db.baseRemovedView db.backportsRemovedView

/-- A change shows up on a branch through its tag, or because its commit is backported there. -/
def OnBranch (c : Change) (b : Branch) : Source → Prop
  | .base => c.tag = some b.tag
  | .backport => ∃ bp ∈ db.backport, bp.sha = c.sha ∧ bp.branch = b.id

/-- The rows for the changes of a kind that add or remove a file. -/
def Shows (kind : Change → File → Prop) (row : Row × Source) : Prop :=
  ∃ c ∈ db.change, ∃ s ∈ db.sha, ∃ b ∈ db.branch, s.id = c.sha ∧ db.OnBranch c b row.2 ∧
    ∃ f ∈ db.file, kind c f ∧ row.1 = ⟨b.name, f.name, s.name⟩

/-- The rows for the changes that rename a file. -/
def ShowsRenamed (row : RenamedRow × Source) : Prop :=
  ∃ c ∈ db.change, ∃ s ∈ db.sha, ∃ b ∈ db.branch, s.id = c.sha ∧ db.OnBranch c b row.2 ∧
    ∃ f ∈ db.file, ∃ g ∈ db.file, c.Renames f g ∧ row.1 = ⟨⟨b.name, f.name, s.name⟩, g.name⟩

/-- Each of the three views consists of the rows for the changes of its kind. -/
def ViewsClassify : Prop :=
  (∀ row, row ∈ db.addedView ↔ db.Shows Change.Adds row) ∧
    (∀ row, row ∈ db.renamedView ↔ db.ShowsRenamed row) ∧
    ∀ row, row ∈ db.removedView ↔ db.Shows Change.Removes row

/-- The files a commit adds are the files it removes. -/
def AddsWhatItRemoves (sha : ℤ) : Prop :=
  ∀ f ∈ db.file, (∃ c ∈ db.change, c.sha = sha ∧ c.Removes f) ↔
    ∃ c ∈ db.change, c.sha = sha ∧ c.Adds f

variable {db}

theorem tag_join_iff {c : Change} {b : Branch} (hb : b ∈ db.branch) :
    (∃ t ∈ db.tag, some t.id = c.tag ∧ b.tag = t.id) ↔ db.OnBranch c b .base := by
  constructor
  · rintro ⟨t, -, hc, hbt⟩
    rw [OnBranch, ← hc, hbt]
  · intro h
    obtain ⟨t, ht, hid⟩ := db.branch_tag b hb
    exact ⟨t, ht, by rw [h, hid], hid.symm⟩

theorem mem_joinBase {α : Type} {rows : List α} (change : α → Change) {r : α} {s : Sha}
    {b : Branch} :
    (∃ t, (((r, s), t), b) ∈ db.joinBase rows change) ↔
      r ∈ rows ∧ s ∈ db.sha ∧ b ∈ db.branch ∧ s.id = (change r).sha ∧
        db.OnBranch (change r) b .base := by
  simp only [joinBase, mem_join, decide_eq_true_eq]
  constructor
  · rintro ⟨t, ⟨⟨hr, hs, hsha⟩, ht, htag⟩, hb, hbt⟩
    exact ⟨hr, hs, hb, hsha, (tag_join_iff hb).mp ⟨t, ht, htag, hbt⟩⟩
  · rintro ⟨hr, hs, hb, hsha, hon⟩
    obtain ⟨t, ht, htag, hbt⟩ := (tag_join_iff hb).mpr hon
    exact ⟨t, ⟨⟨hr, hs, hsha⟩, ht, htag⟩, hb, hbt⟩

theorem mem_joinBackports {c : Change} {s : Sha} {b : Branch} :
    (∃ bp, (((bp, b), c), s) ∈ db.joinBackports) ↔
      c ∈ db.change ∧ s ∈ db.sha ∧ b ∈ db.branch ∧ s.id = c.sha ∧
        db.OnBranch c b .backport := by
  simp only [joinBackports, mem_join, decide_eq_true_eq]
  constructor
  · rintro ⟨bp, ⟨⟨hbp, hb, hbr⟩, hc, hsha⟩, hs, hid⟩
    exact ⟨hc, hs, hb, hid, bp, hbp, hsha.symm, hbr.symm⟩
  · rintro ⟨hc, hs, hb, hid, bp, hbp, hsha, hbr⟩
    exact ⟨bp, ⟨⟨hbp, hb, hbr.symm⟩, hc, hsha.symm⟩, hs, hid⟩

theorem mem_baseView {kind : Change → File → Prop} {on : File → Change → Bool}
    (hon : ∀ f c, on f c = true ↔ kind c f) (row : Row) :
    (row ∈ (db.joinBase (join db.file db.change on) Prod.snd).map
      fun (((((file, _), sha), _), branch)) => ⟨branch.name, file.name, sha.name⟩) ↔
      db.Shows kind (row, .base) := by
  simp only [List.mem_map, Shows]
  constructor
  · rintro ⟨⟨⟨⟨⟨f, c⟩, s⟩, t⟩, b⟩, hr, rfl⟩
    obtain ⟨hfc, hs, hb, hsha, hbr⟩ := (mem_joinBase _).mp ⟨t, hr⟩
    obtain ⟨hf, hc, h⟩ := mem_join.mp hfc
    exact ⟨c, hc, s, hs, b, hb, hsha, hbr, f, hf, (hon f c).mp h, rfl⟩
  · rintro ⟨c, hc, s, hs, b, hb, hsha, hbr, f, hf, h, rfl⟩
    have hfc : (f, c) ∈ join db.file db.change on := mem_join.mpr ⟨hf, hc, (hon f c).mpr h⟩
    obtain ⟨t, hr⟩ := (mem_joinBase Prod.snd).mpr ⟨hfc, hs, hb, hsha, hbr⟩
    exact ⟨_, hr, rfl⟩

theorem mem_backportsView {kind : Change → File → Prop} (on : Change → File → Bool)
    (hon : ∀ c f, on c f = true ↔ kind c f) (row : Row) :
    (row ∈ (join db.joinBackports db.file fun r file => on r.1.2 file).map
      fun (((((_, branch), _), sha), file)) => ⟨branch.name, file.name, sha.name⟩) ↔
      db.Shows kind (row, .backport) := by
  simp only [List.mem_map, Shows]
  constructor
  · rintro ⟨⟨⟨⟨⟨bp, b⟩, c⟩, s⟩, f⟩, hr, rfl⟩
    obtain ⟨hbp, hf, h⟩ := mem_join.mp hr
    obtain ⟨hc, hs, hb, hsha, hbr⟩ := mem_joinBackports.mp ⟨bp, hbp⟩
    exact ⟨c, hc, s, hs, b, hb, hsha, hbr, f, hf, (hon c f).mp h, rfl⟩
  · rintro ⟨c, hc, s, hs, b, hb, hsha, hbr, f, hf, h, rfl⟩
    obtain ⟨bp, hbp⟩ := mem_joinBackports.mpr ⟨hc, hs, hb, hsha, hbr⟩
    exact ⟨((((bp, b), c), s), f), mem_join.mpr ⟨hbp, hf, (hon c f).mpr h⟩, rfl⟩

theorem mem_baseAddedView (row : Row) :
    row ∈ db.baseAddedView ↔ db.Shows Change.Adds (row, .base) := by
  refine mem_baseView (fun f c => ?_) row
  rw [decide_eq_true_eq, Change.Adds, and_comm]

theorem mem_baseRemovedView (row : Row) :
    row ∈ db.baseRemovedView ↔ db.Shows Change.Removes (row, .base) := by
  refine mem_baseView (fun f c => ?_) row
  rw [decide_eq_true_eq, Change.Removes, and_comm]

theorem mem_backportsRemovedView (row : Row) :
    row ∈ db.backportsRemovedView ↔ db.Shows Change.Removes (row, .backport) := by
  refine mem_backportsView (fun c file => some file.id = c.fromFile ∧ c.toFile = none)
    (fun c f => ?_) row
  rw [decide_eq_true_eq, Change.Removes, eq_comm]

theorem mem_backportsAddedView (row : Row) :
    row ∈ db.backportsAddedView ↔ db.Shows Change.Removes (row, .backport) :=
  mem_backportsRemovedView row

theorem renames_iff {c : Change} {f g : File} :
    c.Renames f g ↔
      (c.toFile ≠ none ∧ c.fromFile = some f.id) ∧ c.toFile = some g.id := by
  rw [Change.Renames]
  constructor
  · rintro ⟨hf, hg⟩
    exact ⟨⟨by simp [hg], hf⟩, hg⟩
  · rintro ⟨⟨-, hf⟩, hg⟩
    exact ⟨hf, hg⟩

theorem mem_baseRenamedView (row : RenamedRow) :
    row ∈ db.baseRenamedView ↔ db.ShowsRenamed (row, .base) := by
  simp only [baseRenamedView, List.mem_map, ShowsRenamed]
  constructor
  · rintro ⟨⟨⟨⟨⟨⟨f, c⟩, g⟩, s⟩, t⟩, b⟩, hr, rfl⟩
    obtain ⟨hfcg, hs, hb, hsha, hbr⟩ := (mem_joinBase _).mp ⟨t, hr⟩
    simp only [mem_join, decide_eq_true_eq] at hfcg
    obtain ⟨⟨hf, hc, hfrom⟩, hg, hto⟩ := hfcg
    exact ⟨c, hc, s, hs, b, hb, hsha, hbr, f, hf, g, hg, renames_iff.mpr ⟨hfrom, hto⟩, rfl⟩
  · rintro ⟨c, hc, s, hs, b, hb, hsha, hbr, f, hf, g, hg, h, rfl⟩
    obtain ⟨hfrom, hto⟩ := renames_iff.mp h
    have hfcg : ((f, c), g) ∈ join (join db.file db.change fun file change =>
        change.toFile ≠ none ∧ change.fromFile = some file.id)
        db.file fun r newFile => r.2.toFile = some newFile.id := by
      simp only [mem_join, decide_eq_true_eq]
      exact ⟨⟨hf, hc, hfrom⟩, hg, hto⟩
    obtain ⟨t, hr⟩ := (mem_joinBase fun r => r.1.2).mpr ⟨hfcg, hs, hb, hsha, hbr⟩
    exact ⟨_, hr, rfl⟩

theorem mem_backportsRenamedView (row : RenamedRow) :
    row ∈ db.backportsRenamedView ↔ db.ShowsRenamed (row, .backport) := by
  simp only [backportsRenamedView, List.mem_map, ShowsRenamed]
  constructor
  · rintro ⟨⟨⟨⟨⟨⟨bp, b⟩, c⟩, s⟩, f⟩, g⟩, hr, rfl⟩
    simp only [mem_join, decide_eq_true_eq] at hr
    obtain ⟨⟨hbp, hf, hfrom, hne⟩, hg, hto⟩ := hr
    obtain ⟨hc, hs, hb, hsha, hbr⟩ := mem_joinBackports.mp ⟨bp, hbp⟩
    exact ⟨c, hc, s, hs, b, hb, hsha, hbr, f, hf, g, hg,
      renames_iff.mpr ⟨⟨hne, hfrom.symm⟩, hto⟩, rfl⟩
  · rintro ⟨c, hc, s, hs, b, hb, hsha, hbr, f, hf, g, hg, h, rfl⟩
    obtain ⟨⟨hne, hfrom⟩, hto⟩ := renames_iff.mp h
    obtain ⟨bp, hbp⟩ := mem_joinBackports.mpr ⟨hc, hs, hb, hsha, hbr⟩
    refine ⟨(((((bp, b), c), s), f), g), ?_, rfl⟩
    simp only [mem_join, decide_eq_true_eq]
    exact ⟨⟨hbp, hf, hfrom.symm, hne⟩, hg, hto⟩

theorem mem_union {α : Type} {base backports : List α} {P : α × Source → Prop}
    (hbase : ∀ r, r ∈ base ↔ P (r, .base)) (hback : ∀ r, r ∈ backports ↔ P (r, .backport))
    (row : α × Source) : row ∈ union base backports ↔ P row := by
  rcases row with ⟨r, _ | _⟩
  · simpa [union] using hbase r
  · simpa [union] using hback r

theorem mem_removedView (row : Row × Source) :
    row ∈ db.removedView ↔ db.Shows Change.Removes row :=
  mem_union mem_baseRemovedView mem_backportsRemovedView row

theorem mem_renamedView (row : RenamedRow × Source) :
    row ∈ db.renamedView ↔ db.ShowsRenamed row :=
  mem_union mem_baseRenamedView mem_backportsRenamedView row

theorem shows_backport_iff {kind : Change → File → Prop} {bp : Backport} {b : Branch} {s : Sha}
    {f : File} (hbp : bp ∈ db.backport) (hb : b ∈ db.branch) (hs : s ∈ db.sha)
    (hf : f ∈ db.file) (hbr : b.id = bp.branch) (hsha : s.id = bp.sha) :
    db.Shows kind (⟨b.name, f.name, s.name⟩, .backport) ↔
      ∃ c ∈ db.change, c.sha = bp.sha ∧ kind c f := by
  constructor
  · rintro ⟨c, hc, s', hs', b', hb', hid, -, f', hf', hk, hrow⟩
    simp only [Row.mk.injEq] at hrow
    obtain ⟨-, hfn, hsn⟩ := hrow
    obtain rfl := db.file_name.eq hf hf' hfn
    obtain rfl := db.sha_name.eq hs hs' hsn
    exact ⟨c, hc, by rw [← hid, hsha], hk⟩
  · rintro ⟨c, hc, hcs, hk⟩
    exact ⟨c, hc, s, hs, b, hb, by rw [hsha, hcs], ⟨bp, hbp, hcs.symm, hbr.symm⟩, f, hf, hk, rfl⟩

theorem shows_backport_congr_iff {kind kind' : Change → File → Prop} :
    (∀ row, db.Shows kind (row, .backport) ↔ db.Shows kind' (row, .backport)) ↔
      ∀ bp ∈ db.backport, ∀ f ∈ db.file, (∃ c ∈ db.change, c.sha = bp.sha ∧ kind c f) ↔
        ∃ c ∈ db.change, c.sha = bp.sha ∧ kind' c f := by
  constructor
  · intro h bp hbp f hf
    obtain ⟨b, hb, hbr⟩ := db.backport_branch bp hbp
    obtain ⟨s, hs, hsha⟩ := db.backport_sha bp hbp
    rw [← shows_backport_iff hbp hb hs hf hbr hsha, h,
      shows_backport_iff hbp hb hs hf hbr hsha]
  · intro h row
    constructor
    · rintro ⟨c, hc, s, hs, b, hb, hsha, ⟨bp, hbp, hbs, hbr⟩, f, hf, hk, rfl⟩
      rw [shows_backport_iff hbp hb hs hf hbr.symm (by rw [hsha, hbs]), ← h bp hbp f hf]
      exact ⟨c, hc, hbs.symm, hk⟩
    · rintro ⟨c, hc, s, hs, b, hb, hsha, ⟨bp, hbp, hbs, hbr⟩, f, hf, hk, rfl⟩
      rw [shows_backport_iff hbp hb hs hf hbr.symm (by rw [hsha, hbs]), h bp hbp f hf]
      exact ⟨c, hc, hbs.symm, hk⟩

/-- The views classify the changes iff every backported commit adds just the files it removes:
the rows of backports in the view of added files are those of its removals. -/
theorem viewsClassify_iff (db : DB) :
    db.ViewsClassify ↔ ∀ bp ∈ db.backport, db.AddsWhatItRemoves bp.sha := by
  rw [ViewsClassify, and_iff_left ⟨mem_renamedView, mem_removedView⟩]
  unfold AddsWhatItRemoves
  rw [← shows_backport_congr_iff]
  constructor
  · intro h row
    rw [← mem_backportsAddedView, ← h]
    simp [addedView, union]
  · intro h
    exact mem_union mem_baseAddedView fun r => (mem_backportsAddedView r).trans (h r)

end DB

/-- One commit that removes `a` and is backported to a branch. -/
def removal : DB where
  tag := [⟨1, ['v']⟩]
  branch := [⟨1, ['m'], 1⟩]
  sha := [⟨1, ['c']⟩]
  file := [⟨1, ['a']⟩]
  backport := [⟨1, 1, 1⟩]
  change := [⟨1, 1, some 1, none, none⟩]
  tag_id := by decide
  tag_name := by decide
  branch_id := by decide
  branch_name := by decide
  sha_id := by decide
  sha_name := by decide
  file_id := by decide
  file_name := by decide
  backport_id := by decide
  change_id := by decide
  branch_tag := by decide
  backport_sha := by decide
  backport_branch := by decide
  change_sha := by decide
  change_from := by decide
  change_to := by decide
  change_tag := by decide

theorem removal_shows_as_added :
    (⟨['m'], ['a'], ['c']⟩, Source.backport) ∈ removal.addedView ∧ ¬ removal.ViewsClassify := by
  have hmem : (⟨['m'], ['a'], ['c']⟩, Source.backport) ∈ removal.addedView := by decide
  refine ⟨hmem, fun h => ?_⟩
  obtain ⟨c, hc, -, -, -, -, -, -, f, -, ⟨hfrom, -⟩, -⟩ := (h.1 _).mp hmem
  obtain rfl : c = ⟨1, 1, some 1, none, none⟩ := by simpa [removal] using hc
  cases hfrom

end CollectedSources.Views
