/-
  StackVM.Proofs.Files.Directories — the directories that are made for a new file.

  Before a file is stored, the directories above it that are missing are made, outermost first, until one cannot be
  made. Whatever comes of it, nothing else has changed: each of them was made where nothing stood, and under the path of
  an ancestor of the file.

  - `makeDirectory_cases`: what the making of one directory comes to.
  - `Grown`, `Kept`: a number of directories made, and what that means for one location.
  - `grown_makeEach`, `grown_ensureParent`: all that is done to the files before one is stored.
-/

import StackVM.Proofs.Files.Paths
import StackVM.Proofs.Files.Tree

namespace StackVM

namespace Path

/-- The parent of a path, the parent's parent, and so on. -/
inductive Above (p : Text) : Text → Prop
  | parent : Above p (parent p)
  | up {q : Text} : Above p q → Above p (Path.parent q)

theorem Above.trans {p q r : Text} (hq : Above p q) (hr : Above q r) : Above p r := by
  induction hr with
  | parent => exact .up hq
  | up _ ih => exact .up ih

theorem above_of_mem_ancestors {p q : Text} (hq : q ∈ ancestors p) : Above p q ∧ q ≠ [] := by
  induction p using ancestors.induct with
  | case1 p hshorter hempty =>
    rw [ancestors, dif_pos hshorter, if_pos hempty] at hq
    cases hq
  | case2 p hshorter hempty ih =>
    rw [ancestors, dif_pos hshorter, if_neg hempty] at hq
    rcases List.mem_cons.mp hq with rfl | hq
    · exact ⟨.parent, by simpa using hempty⟩
    · exact ⟨Above.parent.trans (ih hq).1, (ih hq).2⟩
  | case3 p hshorter =>
    rw [ancestors, dif_neg hshorter] at hq
    cases hq

end Path

namespace FileTree

variable {t t₁ t' : FileTree} {l l' k : Location} {n : Node} {p target : Text} {names : List Text}

/-! ## One directory -/

theorem eq_withoutTrailing_append (names : List Text) :
    ∃ k, names = withoutTrailing names ++ List.replicate k [] :=
  eq_append_replicate (fun _ hname => List.isEmpty_iff.mp hname) names

theorem followAll_replicate_nil (hdir : t.node? l = some .directory) (k : Nat) :
    t.followAll l (List.replicate k []) = .ok l := by
  induction k with
  | zero => rfl
  | succ k ih => rw [List.replicate_succ, followAll, follow_of_leads (.stay hdir rfl)]; exact ih

theorem eq_of_followAll_replicate {k : Nat} (hf : t.followAll l (List.replicate k []) = .ok l') : l' = l := by
  induction k generalizing l with
  | zero => cases hf; rfl
  | succ k ih =>
    rw [List.replicate_succ, followAll] at hf
    cases hx : t.follow l [] with
    | error e => rw [hx] at hf; cases hf
    | ok l₁ =>
      rw [hx] at hf
      cases leads_of_follow hx with
      | stay _ _ => exact ih hf
      | up _ hmoves _ => cases hmoves
      | down _ hname _ _ => cases hname

theorem status_eq_directory :
    t.status p = .directory ↔ ∃ l, t.locate p = .ok l ∧ t.node? l = some .directory := by
  unfold status
  constructor
  · intro hs
    split at hs
    next l hl =>
      split at hs
      next hn => exact ⟨l, hl, hn⟩
      next => cases hs
      next => cases hs
    all_goals cases hs
  · rintro ⟨l, hl, hn⟩
    rw [hl]
    simp only [hn]

theorem Leads.length_le (hs : t.Leads l name l') : name.length ≤ maxName := by
  cases hs with
  | stay _ hsame =>
    rcases Bool.or_eq_true_iff.mp hsame with hempty | hpoint
    · rw [List.isEmpty_iff.mp hempty]
      exact Nat.zero_le _
    · rw [beq_iff_eq.mp hpoint]
      decide
  | up _ _ hup =>
    rw [beq_iff_eq.mp hup]
    decide
  | down _ _ hlong _ => exact hlong

/-- A path to a directory has a place: its last part can be put where the parts before it lead. -/
theorem exists_place (hs : t.status p = .directory) (hparts : partsOf p.untilZero = .ok names) :
    ∃ x, t.place (withoutTrailing names) p = .ok x := by
  obtain ⟨l, hl, hdir⟩ := status_eq_directory.mp hs
  rw [locate, hparts] at hl
  obtain ⟨j, hj⟩ := eq_withoutTrailing_append names
  dsimp only at hl
  rw [hj] at hl
  obtain ⟨l₁, hl₁, hsame⟩ := followAll_append_eq_ok hl
  have hdir₁ : t.node? l₁ = some .directory := by
    rw [← eq_of_followAll_replicate hsame]
    exact hdir
  generalize withoutTrailing names = names at hl₁
  rcases List.eq_nil_or_concat names with rfl | ⟨front, name, rfl⟩
  · cases hl₁
    exact ⟨(t.origin p, []), by simp [place, followAll, hdir₁]⟩
  · rw [List.concat_eq_append] at hl₁ ⊢
    obtain ⟨l₂, hfront, hlast⟩ := followAll_append_eq_ok hl₁
    rw [followAll] at hlast
    cases hx : t.follow l₂ name with
    | error e => rw [hx] at hlast; cases hlast
    | ok l₃ =>
      have hleads := leads_of_follow hx
      exact ⟨(l₂, name), by simp [place, hfront, hleads.through, Nat.not_lt_of_le hleads.length_le]⟩

/-- Making a directory fails and changes nothing, or it puts one where nothing stood, and the path then leads to it. It
fails where the path leads to a directory already, and then for no other reason. -/
theorem makeDirectory_cases (t : FileTree) (p : Text) :
    (∃ e, t.makeDirectory p = (some e, t) ∧ (e = .alreadyThere ∨ t.status p ≠ .directory)) ∨
    ∃ l name, t.node? l = some .directory ∧ t.node? (l ++ [name]) = none ∧
      t.makeDirectory p = (none, t.put (l ++ [name]) .directory) ∧
      (t.put (l ++ [name]) .directory).locate p = .ok (l ++ [name]) := by
  unfold makeDirectory
  cases hparts : partsOf p.untilZero with
  | error e =>
    refine .inl ⟨e, rfl, .inr fun hs => ?_⟩
    obtain ⟨l, hl, -⟩ := status_eq_directory.mp hs
    rw [locate, hparts] at hl
    cases hl
  | ok names =>
    dsimp only
    cases hplace : t.place (withoutTrailing names) p with
    | error e =>
      refine .inl ⟨e, rfl, .inr fun hs => ?_⟩
      obtain ⟨x, hx⟩ := exists_place hs hparts
      rw [hplace] at hx
      cases hx
    | ok x =>
      obtain ⟨l, name⟩ := x
      dsimp only
      by_cases hname : isReserved name = true
      · exact .inl ⟨_, by rw [if_pos hname], .inl rfl⟩
      by_cases hthere : (t.node? (l ++ [name])).isSome = true
      · exact .inl ⟨_, by rw [if_neg hname, if_pos hthere], .inl rfl⟩
      have hnone : t.node? (l ++ [name]) = none := by simpa using hthere
      have hk : l ++ [name] ≠ [] := by simp
      have hmade : (t.put (l ++ [name]) .directory).node? (l ++ [name]) = some .directory := by
        rw [node?_put t hk, if_pos rfl]
      have hfollow := followAll_put_place hplace (Bool.eq_false_iff.mpr hname) (by simp [hnone]) .directory
      obtain ⟨j, hj⟩ := eq_withoutTrailing_append names
      refine .inr ⟨l, name, (place_eq_ok hplace).2.2.1, hnone, by rw [if_neg hname, if_neg hthere], ?_⟩
      rw [locate, hparts]
      show followAll _ (t.origin p) names = _
      rw [hj, followAll_append _ _ hfollow, followAll_replicate_nil hmade]

/-! ## Directories above a file -/

/-- Directories have been made one after the other: each where nothing stood, and under a path above `target`. -/
inductive Grown (target : Text) (t : FileTree) : FileTree → Prop
  | refl : Grown target t t
  | make {t₁ : FileTree} {p : Text} {l : Location} : Grown target t t₁ → Path.Above target p → l ≠ [] →
      t₁.node? l = none → (t₁.put l .directory).locate p = .ok l → Grown target t (t₁.put l .directory)

/-- What stands at `l` has stood there before, or it is a directory above `target` and nothing stood there. -/
def Kept (target : Text) (t t' : FileTree) (l : Location) : Prop :=
  t'.node? l = t.node? l ∨
    t.node? l = none ∧ t'.node? l = some .directory ∧ ∃ p, Path.Above target p ∧ t'.locate p = .ok l

theorem locate_put (hk : k ≠ []) (hfree : t.node? k ≠ some .directory) (n : Node) (hl : t.locate p = .ok l) :
    (t.put k n).locate p = .ok l := by
  unfold locate at hl ⊢
  cases hparts : partsOf p.untilZero with
  | error e => rw [hparts] at hl; cases hl
  | ok names =>
    rw [hparts] at hl
    exact followAll_put hk hfree n hl

/-- A change elsewhere that takes no directory away. -/
theorem Kept.put (hl : Kept target t t₁ l) (hk : k ≠ []) (hfree : t₁.node? k ≠ some .directory) (hne : l ≠ k)
    (n : Node) : Kept target t (t₁.put k n) l := by
  unfold Kept
  rw [node?_put t₁ hk, if_neg hne]
  rcases hl with hsame | ⟨hnone, hmade, p, hp, hlocate⟩
  · exact .inl hsame
  · exact .inr ⟨hnone, hmade, p, hp, locate_put hk hfree n hlocate⟩

/-- Regular files are among what has stood there before. -/
theorem Kept.file_iff (hl : Kept target t t' l) (bytes : Bytes) :
    t'.node? l = some (.file bytes) ↔ t.node? l = some (.file bytes) := by
  rcases hl with hsame | ⟨hnone, hmade, -⟩
  · rw [hsame]
  · simp [hnone, hmade]

theorem Grown.kept (h : Grown target t t') (l : Location) : Kept target t t' l := by
  induction h with
  | refl => exact .inl rfl
  | @make t₁ p k _ hp hk hnone hlocate ih =>
    by_cases hl : l = k
    · subst hl
      have hbefore : t.node? l = none := by
        rcases ih with hsame | ⟨hbefore, -⟩
        · rw [← hsame]; exact hnone
        · exact hbefore
      exact .inr ⟨hbefore, by rw [node?_put t₁ hk, if_pos rfl], p, hp, hlocate⟩
    · exact ih.put hk (by simp [hnone]) hl _

theorem Grown.makeDirectory (h : Grown target t t₁) (hp : Path.Above target p) :
    Grown target t (t₁.makeDirectory p).2 := by
  rcases makeDirectory_cases t₁ p with ⟨e, hsame, -⟩ | ⟨l, name, -, hnone, hmade, hlocate⟩
  · rw [hsame]; exact h
  · rw [hmade]; exact h.make hp (by simp) hnone hlocate

/-- A file that cannot be stored is not stored in part. -/
theorem store_eq_false {bytes : Bytes} (hs : t.store p bytes = (false, t')) : t' = t := by
  unfold store at hs
  split at hs
  · cases hs; rfl
  split at hs
  · cases hs; rfl
  split at hs
  · cases hs; rfl
  split at hs
  · cases hs; rfl
  · cases hs

end FileTree

/-! ## All that is missing -/

namespace Files

open FileTree FileM

variable {t t₁ : FileTree} {path target : Text} {paths : List Text}

theorem run_status (path : Text) (t : FileTree) : (MonadFiles.status path : FileM _).run t = (t.status path, t) := rfl

theorem run_makeDirectory (path : Text) (t : FileTree) :
    (MonadFiles.makeDirectory path : FileM _).run t = t.makeDirectory path := rfl

theorem mem_toMake {path p : Text} {found : List Text} (hp : p ∈ toMake path found) : p = path ∨ p ∈ found := by
  unfold toMake at hp
  split at hp
  · exact .inr hp
  · exact List.mem_cons.mp hp

/-- To find out what is missing changes nothing. -/
theorem run_missingAbove (found outer : List Text) (t : FileTree) :
    ∃ x, (missingAbove found outer : FileM _).run t = (x, t) ∧
      ∀ paths, x = .ok paths → ∀ p ∈ paths, p ∈ found ∨ p ∈ outer := by
  induction outer generalizing found with
  | nil =>
    rw [missingAbove]
    split
    · exact ⟨_, rfl, fun paths hx => by cases hx⟩
    · exact ⟨_, rfl, fun paths hx p hp => by cases hx; exact .inl hp⟩
  | cons path outer ih =>
    rw [missingAbove]
    split
    · exact ⟨_, rfl, fun paths hx => by cases hx⟩
    rw [run_bind, run_status]
    dsimp only
    split
    · obtain ⟨x, hx, hpaths⟩ := ih (toMake path found)
      refine ⟨x, hx, fun paths hok p hp => ?_⟩
      rcases hpaths paths hok p hp with hfound | houter
      · rcases mem_toMake hfound with rfl | hfound
        · exact .inr List.mem_cons_self
        · exact .inl hfound
      · exact .inr (List.mem_cons_of_mem _ houter)
    · exact ⟨_, rfl, fun paths hx p hp => by cases hx; exact .inl hp⟩
    · exact ⟨_, rfl, fun paths hx => by cases hx⟩
    · exact ⟨_, rfl, fun paths hx => by cases hx⟩

theorem grown_makeEach (hpaths : ∀ p ∈ paths, Path.Above target p) (made : Bool) (h : Grown target t t₁) :
    Grown target t ((makeEach made paths : FileM _).run t₁).2 := by
  induction paths generalizing made t₁ with
  | nil => exact h
  | cons path paths ih =>
    have hnext := h.makeDirectory (hpaths path List.mem_cons_self)
    have hrest := fun made => ih (fun p hp => hpaths p (List.mem_cons_of_mem _ hp)) made hnext
    rw [makeEach, run_bind, run_makeDirectory]
    split
    · exact hrest true
    · rw [run_bind, run_status]
      dsimp only
      split
      · exact hrest false
      · exact hnext
    · exact hnext

theorem grown_makeDirectories (hpath : Path.Above target path) (h : Grown target t t₁) :
    Grown target t ((makeDirectories path : FileM _).run t₁).2 := by
  rw [makeDirectories, run_bind, run_status]
  dsimp only
  split
  · exact h
  · exact h
  · exact h
  -- a path that ends in a slash stands for what is in front of it
  have hbare : Path.Above target (if (Path.fileName path).isEmpty then Path.parent path else path) := by
    split
    · exact hpath.up
    · exact hpath
  generalize (if (Path.fileName path).isEmpty then Path.parent path else path) = bare at hbare ⊢
  obtain ⟨x, hx, hpaths⟩ := run_missingAbove (toMake bare []) (Path.ancestors bare) t₁
  rw [run_bind, hx]
  cases x with
  | error e => exact h
  | ok paths =>
    refine grown_makeEach (fun p hp => ?_) false h
    rcases hpaths paths rfl p hp with hp | hp
    · rcases mem_toMake hp with rfl | hp
      · exact hbare
      · cases hp
    · exact hbare.trans (Path.above_of_mem_ancestors hp).1

/-- What is done for a file's parent directory, be it of use or not. -/
theorem grown_ensureParent (target : Text) (t : FileTree) :
    Grown target t ((ensureParent target : FileM _).run t).2 := by
  rw [ensureParent]
  dsimp only
  split
  · exact .refl
  rw [run_bind, run_status]
  dsimp only
  split
  · exact .refl
  · exact .refl
  have hmade : Grown target t ((makeDirectories (Path.parent target) : FileM _).run t).2 :=
    grown_makeDirectories .parent .refl
  rw [run_bind]
  split <;> exact hmade

end Files

end StackVM
