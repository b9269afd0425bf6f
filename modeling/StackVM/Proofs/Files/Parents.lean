/-
  StackVM.Proofs.Files.Parents — whether a file's parent directory is there.

  `ensureParent` makes the directories above a file that are missing and tells whether the parent is there. A tree is
  taken to be `Proper`: whatever stands somewhere stands in a directory, and the working directory is one. What was
  there before is there afterwards (`Extends`).

  The answer yes is right. The answer no is right as long as the directory that is made last is a new one: a path that
  goes down, up and down again (`n/../n`) has it made on the way, and then the parent is there and the answer is no
  (`ComesBack`). No path without `..` comes back, and if nothing is in the way of such a path the answer is yes.

  - `not_comesBack_of_straight`, `not_comesBack_of_new`, `comesBack_of_grown`: which paths come back.
  - `makeEach_last`, `run_makeDirectories`: what making the directories comes to.
  - `ensureParent_answers`: the answer.
-/

import StackVM.Proofs.Files.Making

namespace StackVM

open Text (ofString)

namespace FileTree

open StackVM.Path (Above)
open Files (endsInDots)

variable {t t₁ t' : FileTree} {l l' : Location} {p q : Text}

/-! ## Paths that come back -/

/-- The path leads to a directory, but only now, and the directory that is made last is none that was made for it: it
was there before, or something above leads to it as well. -/
def ComesBack (t t' : FileTree) (path : Text) : Prop :=
  t.status path ≠ .directory ∧ t'.status path = .directory ∧
    ∃ p l, lastMade? path = some p ∧ t'.locate p = .ok l ∧
      ((t.node? l).isSome = true ∨ ∃ a, Above p a ∧ t'.locate a = .ok l)

theorem status_lastMade (hrel : Path.isAbsolute p = false) (hq : p = q ∨ Above p q) (hne : q ≠ [])
    (hs : t.status p = .directory) : t.status q = .directory := by
  rcases hq with rfl | hq
  · exact hs
  · exact status_above hrel hq hne hs

/-- A straight path does not come back. -/
theorem not_comesBack_of_straight (ht : t.Proper) (hext : t.Extends t') (hrel : Path.isAbsolute p = false)
    (hname : Path.fileName p ≠ []) (hp : Path.Straight p) : ¬ t.ComesBack t' p := by
  intro hback
  obtain ⟨hbefore, hafter, q, l, hlast, hl, hwhy⟩ := hback
  obtain ⟨hdots, hq⟩ := lastMade?_eq_some hlast
  have hne := ne_nil_of_locate hl
  have hparts : Path.Straight q ∧ Path.isAbsolute q = false ∧ Path.fileName q ≠ [] := by
    rcases hq with rfl | hq
    · exact ⟨hp, hrel, hname⟩
    · exact ⟨hq.straight hrel hne hp, hq.relative hrel, hq.fileName_ne_nil hrel hne⟩
  obtain ⟨hstraight, hrel', hname'⟩ := hparts
  rcases hwhy with hthere | ⟨a, ha, hl'⟩
  · -- then the path led there before anything was made
    have hdir : t.node? l = some .directory := by
      obtain ⟨l', hl', hdir⟩ := status_eq_directory.mp (status_lastMade hrel hq hne hafter)
      rw [hl] at hl'
      cases hl'
      rw [← hext.node?_eq hthere]
      exact hdir
    obtain ⟨l', hl', -⟩ := status_eq_directory.mp hafter
    obtain ⟨-, hlen, -⟩ := length_le_of_locate hl'
    have hthere' := status_eq_directory.mpr ⟨l, ht.locate_before hext hstraight hl hthere, hdir⟩
    exact hbefore (ht.status_of_lastMade hrel hlen hlast hthere')
  · exact locate_above_ne hstraight hrel' (isReserved_fileName hname' hdots) ha hl hl'

/-- What is above it is there as well then. -/
theorem status_of_prepared {a : Text} (hrel : Path.isAbsolute p = false)
    (hs : Path.parent p = [] ∨ t.status (Path.parent p) = .directory) (ha : Above p a) (hne : a ≠ []) :
    t.status a = .directory := by
  rcases hs with hnone | hs
  · exact absurd (ha.eq_nil hnone) hne
  rcases ha.eq_or_above with rfl | ha
  · exact hs
  · exact status_above (Path.isAbsolute_parent hrel) ha hne hs

/-- Where the directory that is made last is new, nothing stood there and nothing above led there. -/
theorem not_comesBack_of_new {name : Text} (hext : t.Extends t₁) (hrel : Path.isAbsolute q = false)
    (hlast : lastMade? p = some q) (hparent : Path.parent q = [] ∨ t₁.status (Path.parent q) = .directory)
    (hnone : t₁.node? (l ++ [name]) = none)
    (hlocate : (t₁.put (l ++ [name]) .directory).locate q = .ok (l ++ [name])) :
    ¬ t.ComesBack (t₁.put (l ++ [name]) .directory) p := by
  intro hback
  obtain ⟨-, -, q', l', hlast', hl', hwhy⟩ := hback
  rw [hlast] at hlast'
  cases hlast'
  rw [hlocate] at hl'
  cases hl'
  rcases hwhy with hthere | ⟨a, ha, hla⟩
  · rw [← hext.node?_eq hthere, hnone] at hthere
    cases hthere
  · have habove := status_of_prepared hrel hparent ha (ne_nil_of_locate hla)
    obtain ⟨k, hk, hdir⟩ := status_eq_directory.mp habove
    rw [(extends_put hnone).locate hk] at hla
    cases hla
    rw [hnone] at hdir
    cases hdir

/-- Where it is there already, it was there before or it has been made for something above. -/
theorem comesBack_of_grown (hbefore : t.status p ≠ .directory) (hafter : t'.status p = .directory)
    (hlast : lastMade? p = some q) (hgrown : Grown q t t') (hthere : t'.status q = .directory) :
    t.ComesBack t' p := by
  obtain ⟨l, hl, hdir⟩ := status_eq_directory.mp hthere
  refine ⟨hbefore, hafter, q, l, hlast, hl, ?_⟩
  rcases hgrown.kept l with hsame | ⟨-, -, a, ha, hla⟩
  · left
    rw [← hsame, hdir]
    rfl
  · exact .inr ⟨a, ha, hla⟩

end FileTree

namespace Files

open FileTree FileM
open StackVM.Path (Above)

variable {t : FileTree} {p q file : Text}

/-! ## Making the directories -/

/-- What prepares for the directory that is made last is made, and then that one. -/
theorem makeEach_last {front : List Text} (ht : t.Proper) (hrel : Path.isAbsolute p = false)
    (hlen : p.untilZero.length ≤ maxPath) (hbefore : t.status p ≠ .directory) (hlast : lastMade? p = some q)
    (hne : q ≠ []) (hfront : ∀ a ∈ front, Above q a ∧ a ≠ [] ∧ endsInDots a = false)
    (hprepares : t.Prepares front q) :
    ∃ x t', (makeEach false (front ++ [q]) : FileM _).run t = (x, t') ∧ t.Extends t' ∧
      (∀ b, x = .ok b → t'.status p = .directory) ∧
      (x = .ok true ↔ t'.status p = .directory ∧ ¬ t.ComesBack t' p) := by
  obtain ⟨-, hq⟩ := lastMade?_eq_some hlast
  have hrel' : Path.isAbsolute q = false := by
    rcases hq with rfl | hq
    · exact hrel
    · exact hq.relative hrel
  obtain ⟨x, t₁, hx, hext, ht₁, hok, herror⟩ := run_makeEach false front ht
  rw [makeEach_append, hx]
  cases x with
  | error e =>
    obtain ⟨a, ha, hnot⟩ := herror e rfl
    refine ⟨_, t₁, rfl, hext, by simp, fun h => (by cases h), fun h => absurd ?_ hnot⟩
    exact status_above hrel' (hfront a ha).1 (hfront a ha).2.1 (status_lastMade hrel hq hne h.1)
  | ok made =>
    dsimp only
    rcases makeEach_single made t₁ q with ⟨l, name, hdir, hnone, hrun, hlocate⟩ | ⟨hrun, hthere⟩ | ⟨e, hrun, hnot⟩
    · rw [hrun]
      have hp := (ht₁.put hdir (by simp [hnone]) .directory).status_of_lastMade hrel hlen hlast (status_put hlocate)
      have hnever := not_comesBack_of_new hext hrel' hlast (hprepares t₁ hext ht₁ (hok made rfl)) hnone hlocate
      exact ⟨_, _, rfl, hext.trans (extends_put hnone), fun _ _ => hp, fun _ => ⟨hp, hnever⟩, fun _ => rfl⟩
    · rw [hrun]
      have hp := ht₁.status_of_lastMade hrel hlen hlast hthere
      have hgrown := grown_makeEach (fun a ha => (hfront a ha).1) false (Grown.refl : Grown q t t)
      rw [hx] at hgrown
      refine ⟨_, t₁, rfl, hext, fun _ _ => hp, fun h => (by cases h), fun h => absurd ?_ h.2⟩
      exact comesBack_of_grown hbefore hp hlast hgrown hthere
    · rw [hrun]
      refine ⟨_, t₁, rfl, hext, by simp, fun h => (by cases h), fun h => absurd ?_ hnot⟩
      exact status_lastMade hrel hq hne h.1

/-- A directory that was not there is made, and so is what is missing above it. The answer is yes if it is there then,
unless the path comes back. -/
theorem run_makeDirectories (ht : t.Proper) (hrel : Path.isAbsolute p = false) (hname : Path.fileName p ≠ [])
    (hbefore : t.status p ≠ .directory) :
    ∃ x t', (makeDirectories p : FileM _).run t = (x, t') ∧ t.Extends t' ∧
      (∀ b, x = .ok b → t'.status p = .directory) ∧
      (x = .ok true ↔ t'.status p = .directory ∧ ¬ t.ComesBack t' p) := by
  have hfails : ∀ e : PathError, (∀ b : Bool, Except.error e = .ok b → t.status p = .directory) ∧
      ((Except.error e : Except PathError Bool) = .ok true ↔ t.status p = .directory ∧ ¬ t.ComesBack t p) :=
    fun e => ⟨by simp, fun h => (by cases h), fun h => absurd h.1 hbefore⟩
  rw [makeDirectories, run_bind, run_status]
  dsimp only
  cases hstatus : t.status p with
  | directory => exact absurd hstatus hbefore
  | file => exact ⟨_, t, rfl, .refl, hfails _⟩
  | unknown e => exact ⟨_, t, rfl, .refl, hfails _⟩
  | missing =>
    dsimp only
    rw [if_neg (by simpa using hname), run_bind]
    obtain ⟨x, hx, -⟩ := run_missingAbove (toMake p []) (Path.ancestors p) t
    rw [hx]
    cases x with
    | error e => exact ⟨_, t, rfl, .refl, hfails _⟩
    | ok paths =>
      have hp := Path.ne_nil_of_fileName hname
      have hlen := length_le_of_status_missing hstatus
      obtain ⟨q, front, hlast, -, hne, rfl, hfront, -, hprepares⟩ :=
        missing_split ht hrel hp hlen hbefore (congrArg Prod.fst hx)
      exact makeEach_last ht hrel hlen hbefore hlast hne hfront hprepares

/-! ## The answer -/

/-- A file needs no parent directory, or it is there. -/
def ParentThere (t : FileTree) (file : Text) : Prop :=
  Path.parent file = [] ∨ t.status (Path.parent file) = .directory

theorem run_ensureParent (ht : t.Proper) (hrel : Path.isAbsolute file = false) :
    ∃ answer log t', (ensureParent file : FileM _).run t = ((answer, log), t') ∧ t.Extends t' ∧
      (t.Clear (Path.parent file) → (Path.ancestors (Path.parent file)).length < maxMissing → ParentThere t' file) ∧
      (answer = true ↔ ParentThere t' file ∧ ¬ t.ComesBack t' (Path.parent file)) := by
  rw [ensureParent]
  dsimp only
  rcases Path.parent_cases hrel with ⟨hnone, -⟩ | ⟨hparent, hrel', hname, -⟩
  · have hnever : ¬ t.ComesBack t (Path.parent file) := fun hback => hback.1 hback.2.1
    rw [if_pos (by simpa using hnone)]
    exact ⟨_, _, t, rfl, .refl, fun _ _ => .inl hnone, fun _ => ⟨.inl hnone, hnever⟩, fun _ => rfl⟩
  have hthere : ∀ {t' : FileTree}, ParentThere t' file → t'.status (Path.parent file) = .directory :=
    fun h => h.resolve_left hparent
  rw [if_neg (by simpa using hparent), run_bind, run_status]
  by_cases hbefore : t.status (Path.parent file) = .directory
  · have hnever : ¬ t.ComesBack t (Path.parent file) := fun hback => hback.1 hbefore
    rw [hbefore]
    exact ⟨_, _, t, rfl, .refl, fun _ _ => .inr hbefore, fun _ => ⟨.inr hbefore, hnever⟩, fun _ => rfl⟩
  obtain ⟨x, t', hx, hext, hok, hanswer⟩ := run_makeDirectories ht hrel' hname hbefore
  have hmakes : t.Clear (Path.parent file) → (Path.ancestors (Path.parent file)).length < maxMissing →
      ParentThere t' file := by
    intro hclear hfew
    obtain ⟨b, t₁, hrun⟩ := makeDirectories_of_clear ht hrel' hname hclear hfew hbefore
    rw [hx] at hrun
    exact .inr (hok b (congrArg Prod.fst hrun))
  cases hstatus : t.status (Path.parent file) with
  | directory => exact absurd hstatus hbefore
  | file =>
    exact ⟨_, _, t, rfl, .refl, fun hclear => absurd hstatus (hclear.free _ (.inl rfl)), fun h => (by cases h),
      fun h => absurd (hthere h.1) hbefore⟩
  | missing | unknown =>
    dsimp only
    rw [run_bind, hx]
    have hno : x ≠ .ok true → ¬ (ParentThere t' file ∧ ¬ t.ComesBack t' (Path.parent file)) :=
      fun hx h => hx (hanswer.mpr (h.imp hthere id))
    cases x with
    | error e => exact ⟨_, _, t', rfl, hext, hmakes, fun h => (by cases h), fun h => absurd h (hno (by simp))⟩
    | ok made =>
      cases made with
      | true => exact ⟨_, _, t', rfl, hext, hmakes, fun _ => (hanswer.mp rfl).imp .inr id, fun _ => rfl⟩
      | false => exact ⟨_, _, t', rfl, hext, hmakes, fun h => (by cases h), fun h => absurd h (hno (by simp))⟩

/-- For a file whose path is not absolute the answer is yes if and only if the parent is there afterwards, unless the
path of the parent comes back. A straight one does not, and if nothing is in its way the answer is yes. Whatever was
there is there still and is what it was, and only directories are new. -/
theorem ensureParent_answers (t : FileTree) (file : Text) (ht : t.Proper) (hrel : Path.isAbsolute file = false) :
    ∃ answer log t', (ensureParent file : FileM _).run t = ((answer, log), t') ∧
      (∀ l n, t.node? l = some n → t'.node? l = some n) ∧
      (∀ l n, t'.node? l = some n → t.node? l = some n ∨ n = .directory) ∧
      (answer = true ↔ ParentThere t' file ∧ ¬ t.ComesBack t' (Path.parent file)) ∧
      (Path.Straight (Path.parent file) → (answer = true ↔ ParentThere t' file)) ∧
      (t.Clear (Path.parent file) → (Path.ancestors (Path.parent file)).length < maxMissing → answer = true) := by
  obtain ⟨answer, log, t', hrun, hext, hmakes, hanswer⟩ := run_ensureParent ht hrel
  have hstraight : Path.Straight (Path.parent file) → (answer = true ↔ ParentThere t' file) := by
    intro hstraight
    have hnever : ¬ t.ComesBack t' (Path.parent file) := by
      intro hback
      have hne := ne_nil_of_status hback.2.1
      rcases Path.parent_cases hrel with ⟨hnone, -⟩ | ⟨-, hrel', hname, -⟩
      · exact hne hnone
      · exact not_comesBack_of_straight ht hext hrel' hname hstraight hback
    rw [hanswer]
    exact and_iff_left hnever
  exact ⟨answer, log, t', hrun, hext.keeps, hext.new, hanswer, hstraight,
    fun hclear hfew => (hstraight hclear.straight).mpr (hmakes hclear hfew)⟩

/-- Nothing at all stands in an empty working directory. -/
theorem ensureParent_answers_nested :
    FileTree.empty.Proper ∧ Path.isAbsolute (ofString "n//./m/f") = false ∧
    FileTree.empty.Clear (Path.parent (ofString "n//./m/f")) ∧
    ∃ log t', (ensureParent (ofString "n//./m/f") : FileM _).run FileTree.empty = ((true, log), t') ∧
      ParentThere t' (ofString "n//./m/f") := by
  have hrel : Path.isAbsolute (ofString "n//./m/f") = false := by decide
  have hclear : FileTree.empty.Clear (Path.parent (ofString "n//./m/f")) :=
    clear_empty ⟨by decide +kernel, by decide +kernel⟩ (by decide +kernel) (by decide +kernel)
  obtain ⟨answer, log, t', hrun, -, -, -, hanswer, hyes⟩ := ensureParent_answers FileTree.empty _ proper_empty hrel
  obtain rfl := hyes hclear (by decide +kernel)
  exact ⟨proper_empty, hrel, hclear, log, t', hrun, (hanswer hclear.straight).mp rfl⟩

/-- Down, up and down again, but to another directory. -/
example : ((ensureParent (ofString "n/../k/f") : FileM _).run FileTree.empty).1 = (true, []) := by decide +kernel

/-- Down, up and down again to the same directory: it is there, and the answer is no. -/
theorem ensureParent_comes_back :
    FileTree.empty.Proper ∧ Path.isAbsolute (ofString "n/../n/f") = false ∧
    ((ensureParent (ofString "n/../n/f") : FileM _).run FileTree.empty).1 =
      (false, [Log.error (ofString "Failed create directory n/../n : Success")]) ∧
    ParentThere ((ensureParent (ofString "n/../n/f") : FileM _).run FileTree.empty).2 (ofString "n/../n/f") :=
  ⟨proper_empty, by decide, by decide +kernel, .inr (by decide +kernel)⟩

end Files

end StackVM
