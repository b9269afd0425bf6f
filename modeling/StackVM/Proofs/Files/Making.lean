/-
  StackVM.Proofs.Files.Making — which directories are made, and whether they can be.

  What is missing above a path is found going up and made coming down, so that the parent of each directory is there
  when its turn comes (`Ladder`). A path that ends in dots stands for another one; of the names above it the last one
  that is its own is made last (`lastMade?`).

  - `missing_split`: which directories have to be made.
  - `run_makeEach`: all of them are there in the end, or one of them could not be made.
  - `Clear`, `makeEach_of_clear`: where nothing is in the way, all of them can be made.
-/

import StackVM.Proofs.Files.Proper

namespace StackVM

open Text (ofString)

namespace FileTree

open StackVM.Path (Above)
open Files (endsInDots)

variable {t t' : FileTree} {l : Location} {p q name : Text} {names : List Text} {e : PathError}

/-! ## The directory that is made last -/

/-- Of a path and its ancestors the innermost whose name is a name of its own, and not one for another directory. -/
def lastMade? (path : Text) : Option Text := (path :: Path.ancestors path).find? fun p => !endsInDots p

theorem lastMade?_of_name (hname : endsInDots p = false) : lastMade? p = some p := by
  rw [lastMade?, List.find?_cons_of_pos (by simp [hname])]

theorem lastMade?_of_dots (hrel : Path.isAbsolute p = false) (hparent : Path.parent p ≠ [])
    (hdots : endsInDots p = true) : lastMade? p = lastMade? (Path.parent p) := by
  rw [lastMade?, List.find?_cons_of_neg (by simp [hdots]), Path.ancestors_cons hrel hparent]
  rfl

/-- The path leads to a directory if the directory that is made last does. -/
theorem Proper.status_of_lastMade (ht : t.Proper) (hrel : Path.isAbsolute p = false)
    (hlen : p.untilZero.length ≤ maxPath) (hlast : lastMade? p = some q) (hs : t.status q = .directory) :
    t.status p = .directory := by
  induction p, hrel using Path.relative_induction with
  | step p hrel ih =>
    by_cases hdots : endsInDots p = true
    · refine ht.status_of_dots hrel hlen hdots ?_
      by_cases hparent : Path.parent p = []
      · exact .inl hparent
      · rw [lastMade?_of_dots hrel hparent hdots] at hlast
        exact .inr (ih hparent (Nat.le_trans (Path.length_untilZero_parent hrel hparent) hlen) hlast)
    · rw [lastMade?_of_name (Bool.eq_false_iff.mpr hdots)] at hlast
      cases hlast
      exact hs

/-- It has a name of its own, and it is the path itself or above it. -/
theorem lastMade?_eq_some (hlast : lastMade? p = some q) : endsInDots q = false ∧ (p = q ∨ Above p q) := by
  refine ⟨by simpa using List.find?_some hlast, ?_⟩
  rcases List.mem_cons.mp (List.mem_of_find?_eq_some hlast) with rfl | hmem
  · exact .inl rfl
  · exact .inr (Path.above_of_mem_ancestors hmem).1

/-- Once the directories in `front` are there, the parent of `p` is. -/
def Prepares (t : FileTree) (front : List Text) (p : Text) : Prop :=
  ∀ t₁, t.Extends t₁ → t₁.Proper → (∀ a ∈ front, t₁.status a = .directory) →
    Path.parent p = [] ∨ t₁.status (Path.parent p) = .directory

/-- Each of them has those in front of it prepare for it. -/
inductive Ladder (t : FileTree) : List Text → Prop
  | nil : Ladder t []
  | concat {front : List Text} {p : Text} : Ladder t front → t.Prepares front p → Ladder t (front ++ [p])

/-! ## Paths with nothing in the way -/

/-- A path that goes down only, that is not too long and has no part that is, and in the way of which no file is. -/
structure Clear (t : FileTree) (p : Text) : Prop where
  straight : Path.Straight p
  short : p.length ≤ maxPath
  names : ∀ name ∈ Path.parts p, name.length ≤ maxName
  free : ∀ a, a = p ∨ Above p a → t.status a ≠ .file

theorem Clear.above {a : Text} (hc : t.Clear p) (hrel : Path.isAbsolute p = false) (ha : Above p a) (hne : a ≠ []) :
    t.Clear a := by
  obtain ⟨rest, hsplit⟩ := ha.split hrel hne
  refine ⟨ha.straight hrel hne hc.straight, ?_, fun name hname => hc.names name ?_, fun b hb => hc.free b (.inr ?_)⟩
  · have hshort := hc.short
    rw [hsplit, List.length_append] at hshort
    omega
  · rw [hsplit, Path.parts_append]
    exact List.mem_append_left _ hname
  · rcases hb with rfl | hb
    · exact ha
    · exact ha.trans hb

theorem Clear.extends (hc : t.Clear p) (ht : t.Proper) (hrel : Path.isAbsolute p = false) (hext : t.Extends t') :
    t'.Clear p := by
  refine ⟨hc.straight, hc.short, hc.names, fun a ha hfile => ?_⟩
  have hne : a ≠ [] := by
    obtain ⟨l, -, hl, -⟩ := status_eq_file.mp hfile
    exact ne_nil_of_locate hl
  have hstraight : Path.Straight a := by
    rcases ha with rfl | ha
    · exact hc.straight
    · exact ha.straight hrel hne hc.straight
  exact hc.free a ha (ht.status_file_before hext hstraight hfile)

/-- A part that is not too long leads somewhere, or it leads nowhere yet. -/
theorem follow_eq_error (hname : name.length ≤ maxName) (hf : t.follow l name = .error e) :
    e = .notFound ∨ e = .notADirectory := by
  unfold follow at hf
  cases hn : t.node? l with
  | none =>
    rw [hn] at hf
    cases hf
    exact .inl rfl
  | some n =>
    cases n with
    | file bytes =>
      rw [hn] at hf
      cases hf
      exact .inr rfl
    | directory =>
      simp only [hn, if_neg (Nat.not_lt_of_le hname)] at hf
      split at hf
      · cases hf
      split at hf
      · cases hf
      split at hf
      · cases hf
      · cases hf
        exact .inl rfl

theorem followAll_eq_error (hnames : ∀ name ∈ names, name.length ≤ maxName) (hf : t.followAll l names = .error e) :
    e = .notFound ∨ e = .notADirectory := by
  induction names generalizing l with
  | nil => cases hf
  | cons name names ih =>
    rw [followAll] at hf
    cases hx : t.follow l name with
    | error e' =>
      rw [hx] at hf
      cases hf
      exact follow_eq_error (hnames name List.mem_cons_self) hx
    | ok l₁ =>
      rw [hx] at hf
      exact ih (fun w hw => hnames w (List.mem_cons_of_mem _ hw)) hf

theorem Clear.status (hc : t.Clear p) : t.status p = .directory ∨ t.status p = .missing := by
  by_cases hp : p = []
  · subst hp
    exact .inr rfl
  cases hs : t.status p with
  | directory => exact .inl rfl
  | missing => exact .inr rfl
  | file => exact absurd hs (hc.free p (.inl rfl))
  | unknown e =>
    rw [FileTree.status, locate, Text.untilZero_eq_self hc.straight.whole, partsOf_eq_ok hp hc.short] at hs
    dsimp only at hs
    cases hf : t.followAll (t.origin p) (Path.parts p) with
    | ok l =>
      rw [hf] at hs
      dsimp only at hs
      split at hs <;> cases hs
    | error e' =>
      rw [hf] at hs
      rcases followAll_eq_error hc.names hf with rfl | rfl <;> cases hs

/-- There are no files in an empty working directory. -/
theorem clear_empty (hp : Path.Straight p) (hshort : p.length ≤ maxPath)
    (hnames : ∀ name ∈ Path.parts p, name.length ≤ maxName) : empty.Clear p := by
  refine ⟨hp, hshort, hnames, fun a _ hfile => ?_⟩
  obtain ⟨l, bytes, -, hn⟩ := status_eq_file.mp hfile
  by_cases hl : l = []
  · subst hl
    cases hn
  · rw [node?_of_ne_nil hl, empty, List.lookup_cons] at hn
    split at hn <;> cases hn

theorem withoutTrailing_concat (hname : name ≠ []) : withoutTrailing (names ++ [name]) = names ++ [name] := by
  rw [withoutTrailing, List.reverse_append, List.reverse_singleton, List.singleton_append,
    List.dropWhile_cons_of_neg (by simpa using hname), List.reverse_cons, List.reverse_reverse]

theorem isReserved_fileName (hname : Path.fileName p ≠ []) (hdots : endsInDots p = false) :
    isReserved (Path.fileName p) = false := by
  rw [endsInDots, Bool.or_eq_false_iff] at hdots
  simp [isReserved, hname, hdots]

/-- Where its parent is there, it is there or can be made. -/
theorem Clear.makeDirectory (hc : t.Clear p) (ht : t.Proper) (hrel : Path.isAbsolute p = false)
    (hname : Path.fileName p ≠ []) (hdots : endsInDots p = false)
    (hparent : Path.parent p = [] ∨ t.status (Path.parent p) = .directory) :
    (t.makeDirectory p).1 = none ∨ t.status p = .directory := by
  obtain ⟨l, front, hparts, hfront, hdir⟩ := ht.exists_front hrel hc.straight.whole hparent
  have hwhole := Text.untilZero_eq_self hc.straight.whole
  have hlong : (Path.fileName p).length ≤ maxName := hc.names _ (Path.fileName_mem_parts p)
  have hown := isReserved_fileName hname hdots
  have hp := Path.ne_nil_of_fileName hname
  by_cases hthere : (t.node? (l ++ [Path.fileName p])).isSome = true
  · right
    have hlocate : t.locate p = .ok (l ++ [Path.fileName p]) := by
      rw [locate, hwhole, partsOf_eq_ok hp hc.short, origin_relative hrel]
      dsimp only
      rw [hparts, followAll_append _ _ hfront, followAll, follow_of_leads (.down hdir hown hlong hthere)]
      rfl
    refine hc.status.resolve_right fun hs => ?_
    obtain ⟨n, hn⟩ := Option.isSome_iff_exists.mp hthere
    rw [FileTree.status, hlocate] at hs
    dsimp only at hs
    rw [hn] at hs
    cases n <;> cases hs
  · left
    have hplace : t.place (front ++ [Path.fileName p]) p = .ok (l, Path.fileName p) := by
      simp [place, origin_relative hrel, hfront, hdir, Nat.not_lt_of_le hlong]
    rw [FileTree.makeDirectory, hwhole, partsOf_eq_ok hp hc.short]
    dsimp only
    rw [hparts, withoutTrailing_concat hname, hplace]
    dsimp only
    rw [if_neg (by simp [hown]), if_neg hthere]

end FileTree

/-! ## The directories that have to be made -/

namespace Files

open FileTree FileM
open StackVM.Path (Above)

variable {t t₁ : FileTree} {p q : Text} {found outer paths : List Text}

theorem missingAbove_nil (h : ((missingAbove found [] : FileM _).run t).1 = .ok paths) : paths = found := by
  rw [missingAbove] at h
  split at h
  · cases h
  · cases h
    rfl

theorem missingAbove_cons (h : ((missingAbove found (q :: outer) : FileM _).run t).1 = .ok paths) :
    (t.status q = .directory ∧ paths = found) ∨
    (t.status q = .missing ∧ ((missingAbove (toMake q found) outer : FileM _).run t).1 = .ok paths) := by
  rw [missingAbove] at h
  split at h
  · cases h
  rw [run_bind, run_status] at h
  dsimp only at h
  cases hq : t.status q with
  | missing =>
    rw [hq] at h
    exact .inr ⟨rfl, h⟩
  | directory =>
    rw [hq] at h
    cases h
    exact .inl ⟨rfl, rfl⟩
  | file => rw [hq] at h; cases h
  | unknown e => rw [hq] at h; cases h

/-- What is found missing above a path can be made one after the other, and prepares for it. -/
theorem missingAbove_front (hrel : Path.isAbsolute p = false) (hlen : p.untilZero.length ≤ maxPath)
    (h : ((missingAbove found (Path.ancestors p) : FileM _).run t).1 = .ok paths) :
    ∃ front, paths = front ++ found ∧ (∀ a ∈ front, Above p a ∧ a ≠ [] ∧ endsInDots a = false) ∧
      t.Ladder front ∧ t.Prepares front p := by
  induction p, hrel using Path.relative_induction generalizing found with
  | step p hrel ih =>
    by_cases hparent : Path.parent p = []
    · rw [Path.ancestors_of_parent_eq_nil hparent] at h
      exact ⟨[], missingAbove_nil h, by simp, .nil, fun t₁ _ _ _ => .inl hparent⟩
    rw [Path.ancestors_cons hrel hparent] at h
    rcases missingAbove_cons h with ⟨hdir, rfl⟩ | ⟨-, hrest⟩
    · exact ⟨[], rfl, by simp, .nil, fun t₁ hext _ _ => .inr (hext.status hdir)⟩
    have hlen' := Nat.le_trans (Path.length_untilZero_parent hrel hparent) hlen
    obtain ⟨front, rfl, habove, hladder, hprepares⟩ := ih hparent hlen' hrest
    have hfront : ∀ a ∈ front, Above p a ∧ a ≠ [] ∧ endsInDots a = false :=
      fun a ha => ⟨Above.parent.trans (habove a ha).1, (habove a ha).2⟩
    unfold toMake
    by_cases hdots : endsInDots (Path.parent p) = true
    · rw [if_pos hdots]
      refine ⟨front, rfl, hfront, hladder, fun t₁ hext ht₁ hdirs => .inr ?_⟩
      exact ht₁.status_of_dots (Path.isAbsolute_parent hrel) hlen' hdots (hprepares t₁ hext ht₁ hdirs)
    · rw [if_neg hdots]
      refine ⟨front ++ [Path.parent p], by simp, fun a ha => ?_, hladder.concat hprepares,
        fun t₁ _ _ hdirs => .inr (hdirs _ (by simp))⟩
      rcases List.mem_append.mp ha with ha | ha
      · exact hfront a ha
      · rw [List.mem_singleton.mp ha]
        exact ⟨.parent, hparent, Bool.eq_false_iff.mpr hdots⟩

/-- What has to be made for a missing path: the directory that is made last, behind those that prepare for it. -/
theorem missing_split (ht : t.Proper) (hrel : Path.isAbsolute p = false) (hp : p ≠ [])
    (hlen : p.untilZero.length ≤ maxPath) (hmissing : t.status p ≠ .directory)
    (h : ((missingAbove (toMake p []) (Path.ancestors p) : FileM _).run t).1 = .ok paths) :
    ∃ q front, lastMade? p = some q ∧ (p = q ∨ Above p q) ∧ q ≠ [] ∧ paths = front ++ [q] ∧
      (∀ a ∈ front, Above q a ∧ a ≠ [] ∧ endsInDots a = false) ∧ t.Ladder front ∧ t.Prepares front q := by
  induction p, hrel using Path.relative_induction with
  | step p hrel ih =>
    by_cases hdots : endsInDots p = true
    · -- the parent is missing as well, since otherwise the dots would lead somewhere
      have hnot : ¬ (Path.parent p = [] ∨ t.status (Path.parent p) = .directory) :=
        fun hs => hmissing (ht.status_of_dots hrel hlen hdots hs)
      obtain ⟨hparent, hmissing'⟩ := not_or.mp hnot
      rw [toMake, if_pos hdots, Path.ancestors_cons hrel hparent] at h
      rcases missingAbove_cons h with ⟨hdir, -⟩ | ⟨-, hrest⟩
      · exact absurd hdir hmissing'
      · obtain ⟨q, front, hlast, habove, hne, hpaths, hfront, hready⟩ :=
          ih hparent hparent (Nat.le_trans (Path.length_untilZero_parent hrel hparent) hlen) hmissing' hrest
        refine ⟨q, front, (lastMade?_of_dots hrel hparent hdots).trans hlast, .inr ?_, hne, hpaths, hfront, hready⟩
        rcases habove with rfl | habove
        · exact .parent
        · exact Above.parent.trans habove
    · rw [toMake, if_neg hdots] at h
      obtain ⟨front, hpaths, hfront, hready⟩ := missingAbove_front hrel hlen h
      exact ⟨p, front, lastMade?_of_name (Bool.eq_false_iff.mpr hdots), .inl rfl, hp, hpaths, hfront, hready⟩

/-! ## Making them -/

/-- One directory: it is made, it is there already, or it can be neither. -/
theorem makeEach_single (made : Bool) (t : FileTree) (p : Text) :
    (∃ l name, t.node? l = some .directory ∧ t.node? (l ++ [name]) = none ∧
      (makeEach made [p] : FileM _).run t = (.ok true, t.put (l ++ [name]) .directory) ∧
      (t.put (l ++ [name]) .directory).locate p = .ok (l ++ [name])) ∨
    ((makeEach made [p] : FileM _).run t = (.ok false, t) ∧ t.status p = .directory) ∨
    ∃ e, (makeEach made [p] : FileM _).run t = (.error e, t) ∧ t.status p ≠ .directory := by
  rw [makeEach, run_bind, run_makeDirectory]
  rcases makeDirectory_cases t p with ⟨e, hsame, hwhy⟩ | ⟨l, name, hdir, hnone, hmade, hlocate⟩
  · rw [hsame]
    right
    by_cases hthere : t.status p = .directory
    · obtain rfl : e = .alreadyThere := hwhy.resolve_right fun hnot => hnot hthere
      dsimp only
      rw [run_bind, run_status, hthere]
      exact .inl ⟨rfl, rfl⟩
    · right
      cases e with
      | alreadyThere =>
        dsimp only
        rw [run_bind, run_status]
        dsimp only
        split
        next hdir => exact absurd hdir hthere
        next => exact ⟨_, rfl, hthere⟩
      | _ => exact ⟨_, rfl, hthere⟩
  · rw [hmade]
    exact .inl ⟨l, name, hdir, hnone, rfl, hlocate⟩

theorem makeEach_append (made : Bool) (paths rest : List Text) (t : FileTree) :
    (makeEach made (paths ++ rest) : FileM _).run t =
      match (makeEach made paths : FileM _).run t with
      | (.ok made, t₁) => (makeEach made rest : FileM _).run t₁
      | (.error e, t₁) => (.error e, t₁) := by
  induction paths generalizing made t with
  | nil => rfl
  | cons path paths ih =>
    rw [List.cons_append, makeEach, makeEach, run_bind, run_bind, run_makeDirectory]
    cases (t.makeDirectory path).1 with
    | none => exact ih true _
    | some e =>
      cases e with
      | alreadyThere =>
        dsimp only
        rw [run_bind, run_bind, run_status]
        dsimp only
        split
        · exact ih false _
        · rfl
      | _ => rfl

/-- All of them are there in the end, or there is one that could not be made. -/
theorem run_makeEach (made : Bool) (paths : List Text) (ht : t.Proper) :
    ∃ x t', (makeEach made paths : FileM _).run t = (x, t') ∧ t.Extends t' ∧ t'.Proper ∧
      (∀ b, x = .ok b → ∀ p ∈ paths, t'.status p = .directory) ∧
      (∀ e, x = .error e → ∃ p ∈ paths, t'.status p ≠ .directory) := by
  induction paths generalizing made t with
  | nil => exact ⟨_, t, rfl, .refl, ht, by simp, fun e hx => by cases hx⟩
  | cons p paths ih =>
    -- where `p` is there in `t₁`, the rest is made in `t₁`
    have hrest : ∀ made t₁, t.Extends t₁ → t₁.Proper → t₁.status p = .directory →
        ∃ x t', (makeEach made paths : FileM _).run t₁ = (x, t') ∧ t.Extends t' ∧ t'.Proper ∧
          (∀ b, x = .ok b → ∀ q ∈ p :: paths, t'.status q = .directory) ∧
          (∀ e, x = .error e → ∃ q ∈ p :: paths, t'.status q ≠ .directory) := by
      intro made t₁ hext ht₁ hp
      obtain ⟨x, t', hx, hext', ht', hok, herror⟩ := ih made ht₁
      refine ⟨x, t', hx, hext.trans hext', ht', fun b hb q hq => ?_, fun e he => ?_⟩
      · rcases List.mem_cons.mp hq with rfl | hq
        · exact hext'.status hp
        · exact hok b hb q hq
      · obtain ⟨q, hq, hnot⟩ := herror e he
        exact ⟨q, List.mem_cons_of_mem _ hq, hnot⟩
    rw [← List.singleton_append, makeEach_append]
    rcases makeEach_single made t p with ⟨l, name, hdir, hnone, hrun, hlocate⟩ | ⟨hrun, hthere⟩ | ⟨e, hrun, hnot⟩
    · rw [hrun]
      exact hrest true _ (extends_put hnone) (ht.put hdir (by simp [hnone]) _) (status_put hlocate)
    · rw [hrun]
      exact hrest false t .refl ht hthere
    · rw [hrun]
      exact ⟨_, t, rfl, .refl, ht, by simp, fun _ _ => ⟨p, List.mem_cons_self, hnot⟩⟩

/-- Where each one's parent is there in time and nothing is in the way, all can be made. -/
theorem makeEach_of_clear (hladder : t.Ladder paths) (ht : t.Proper) (hpaths : ∀ a ∈ paths,
    Path.isAbsolute a = false ∧ Path.fileName a ≠ [] ∧ endsInDots a = false ∧ t.Clear a) (made : Bool) :
    ∃ b t', (makeEach made paths : FileM _).run t = (.ok b, t') := by
  induction hladder with
  | nil => exact ⟨made, t, rfl⟩
  | @concat front a _ hprepares ih =>
    obtain ⟨b, t₁, hrun⟩ := ih fun c hc => hpaths c (List.mem_append_left _ hc)
    obtain ⟨x, t₁', hrun', hext, ht₁, hok, -⟩ := run_makeEach made front ht
    rw [hrun] at hrun'
    cases hrun'
    obtain ⟨hrel, hname, hdots, hclear⟩ := hpaths a (List.mem_append_right _ List.mem_cons_self)
    have hmade := (hclear.extends ht hrel hext).makeDirectory ht₁ hrel hname hdots
      (hprepares t₁ hext ht₁ (hok b rfl))
    rw [makeEach_append, hrun]
    dsimp only
    rcases makeEach_single b t₁ a with ⟨l, name, -, -, hlast, -⟩ | ⟨hlast, -⟩ | ⟨e, hlast, hnot⟩
    · exact ⟨_, _, hlast⟩
    · exact ⟨_, _, hlast⟩
    · have hnone := hmade.resolve_right hnot
      rw [makeEach, run_bind, run_makeDirectory, hnone] at hlast
      cases hlast

/-- Nothing stands in the way of finding out what is missing. -/
theorem missingAbove_eq_ok (hfew : found.length + outer.length ≤ maxMissing)
    (hstatus : ∀ a ∈ outer, t.status a = .directory ∨ t.status a = .missing) :
    ∃ paths, (missingAbove found outer : FileM _).run t = (.ok paths, t) := by
  induction outer generalizing found with
  | nil =>
    rw [List.length_nil, Nat.add_zero] at hfew
    rw [missingAbove, if_neg (Nat.not_lt_of_le hfew)]
    exact ⟨_, rfl⟩
  | cons a outer ih =>
    rw [List.length_cons] at hfew
    have hlonger : (toMake a found).length ≤ found.length + 1 := by
      unfold toMake
      split
      · exact Nat.le_succ _
      · exact Nat.le_refl _
    rw [missingAbove, if_neg (by omega), run_bind, run_status]
    rcases hstatus a List.mem_cons_self with hs | hs
    · rw [hs]
      exact ⟨_, rfl⟩
    · rw [hs]
      exact ih (by omega) fun b hb => hstatus b (List.mem_cons_of_mem _ hb)

theorem makeDirectories_of_clear (ht : t.Proper) (hrel : Path.isAbsolute p = false) (hname : Path.fileName p ≠ [])
    (hclear : t.Clear p) (hfew : (Path.ancestors p).length < maxMissing) (hbefore : t.status p ≠ .directory) :
    ∃ b t', (makeDirectories p : FileM _).run t = (.ok b, t') := by
  have hstatus := hclear.status.resolve_left hbefore
  have hlen := length_le_of_status_missing hstatus
  have hp := Path.ne_nil_of_fileName hname
  have hshort : (toMake p []).length ≤ 1 := by
    unfold toMake
    split <;> simp
  have habove : ∀ a ∈ Path.ancestors p, t.status a = .directory ∨ t.status a = .missing := by
    intro a ha
    obtain ⟨habove, hne⟩ := Path.above_of_mem_ancestors ha
    exact (hclear.above hrel habove hne).status
  have hfound : ∃ paths, (missingAbove (toMake p []) (Path.ancestors p) : FileM _).run t = (.ok paths, t) :=
    missingAbove_eq_ok (by omega) habove
  obtain ⟨paths, hpaths⟩ := hfound
  obtain ⟨q, front, hlast, hq, hne, rfl, hfront, hladder, hprepares⟩ :=
    missing_split ht hrel hp hlen hbefore (congrArg Prod.fst hpaths)
  have hwhole : ∀ a, p = a ∨ Above p a → a ≠ [] →
      Path.isAbsolute a = false ∧ Path.fileName a ≠ [] ∧ t.Clear a := by
    intro a ha hne
    rcases ha with rfl | ha
    · exact ⟨hrel, hname, hclear⟩
    · exact ⟨ha.relative hrel, ha.fileName_ne_nil hrel hne, hclear.above hrel ha hne⟩
  rw [makeDirectories, run_bind, run_status, hstatus]
  dsimp only
  rw [if_neg (by simpa using hname), run_bind, hpaths]
  refine makeEach_of_clear (hladder.concat hprepares) ht (fun a ha => ?_) false
  rcases List.mem_append.mp ha with ha | ha
  · obtain ⟨habove, hne', hdots⟩ := hfront a ha
    have ha' : Above p a := by
      rcases hq with rfl | hq
      · exact habove
      · exact hq.trans habove
    obtain ⟨hrel', hname', hclear'⟩ := hwhole a (.inr ha') hne'
    exact ⟨hrel', hname', hdots, hclear'⟩
  · rw [List.mem_singleton.mp ha]
    obtain ⟨hrel', hname', hclear'⟩ := hwhole q hq hne
    exact ⟨hrel', hname', (lastMade?_eq_some hlast).1, hclear'⟩

end Files

end StackVM
