/-
  StackVM.Proofs.Files.Proper — trees as they are, and paths in them.

  In a tree that is `Proper` whatever stands somewhere stands in a directory, and the working directory is one. The
  calls keep it so. A tree is extended by another one in which all that stood somewhere stands there still (`Extends`);
  then every path that led somewhere leads there.

  - `status_parent`, `status_above`: a path leads to a directory only if its parent does, and all that is above it.
  - `Proper.status_of_dots`: a path that ends in dots leads to a directory whenever its parent does.
  - `followAll_straight`: without `..` a path goes down only, part by part.
-/

import StackVM.Proofs.Files.Directories

namespace StackVM

open Text (ofString)

/-! ## Above a path -/

namespace Path

variable {p q : Text}

theorem Above.relative (h : Above p q) (hrel : isAbsolute p = false) : isAbsolute q = false := by
  induction h with
  | parent => exact isAbsolute_parent hrel
  | up _ ih => exact isAbsolute_parent ih

theorem Above.eq_nil (h : Above p q) (hparent : Path.parent p = []) : q = [] := by
  induction h with
  | parent => exact hparent
  | up _ ih => rw [ih]; rfl

/-- What is above a path is the front of it, up to a slash. -/
theorem Above.split (h : Above p q) (hrel : isAbsolute p = false) (hq : q ≠ []) : ∃ rest, p = q ++ slash :: rest := by
  induction h with
  | parent => exact eq_parent_append hrel hq
  | @up q hq' ih =>
    obtain ⟨rest, hrest⟩ := ih (ne_nil_of_parent hq)
    obtain ⟨rest', hrest'⟩ := eq_parent_append (hq'.relative hrel) hq
    refine ⟨rest' ++ slash :: rest, ?_⟩
    rw [← List.cons_append, ← List.append_assoc, ← hrest']
    exact hrest

theorem Above.fileName_ne_nil (h : Above p q) (hrel : isAbsolute p = false) (hq : q ≠ []) : fileName q ≠ [] := by
  cases h with
  | parent => exact fileName_parent_ne_nil hrel hq
  | up h => exact fileName_parent_ne_nil (h.relative hrel) hq

theorem Above.eq_or_above (h : Above p q) : q = Path.parent p ∨ Above (Path.parent p) q := by
  induction h with
  | parent => exact .inl rfl
  | up _ ih =>
    rcases ih with rfl | ih
    · exact .inr .parent
    · exact .inr (.up ih)

/-- A path that never goes up, and of which all is seen. -/
structure Straight (p : Text) : Prop where
  down : ofString ".." ∉ parts p
  whole : 0 ∉ p

theorem Above.straight (h : Above p q) (hrel : isAbsolute p = false) (hq : q ≠ []) (hp : Straight p) : Straight q := by
  obtain ⟨rest, hsplit⟩ := h.split hrel hq
  refine ⟨fun hmem => hp.down ?_, fun hmem => hp.whole ?_⟩
  · rw [hsplit, parts_append]
    exact List.mem_append_left _ hmem
  · rw [hsplit]
    exact List.mem_append_left _ hmem

/-- What holds of a path whenever it holds of the parent holds of every path that is not absolute. -/
theorem relative_induction {motive : (p : Text) → isAbsolute p = false → Prop}
    (step : ∀ p hrel, (parent p ≠ [] → motive (parent p) (isAbsolute_parent hrel)) → motive p hrel)
    (p : Text) (hrel : isAbsolute p = false) : motive p hrel := by
  refine step p hrel fun hparent => ?_
  have := length_parent_lt hrel (ne_nil_of_parent hparent)
  exact relative_induction step (parent p) (isAbsolute_parent hrel)
termination_by p.length

theorem length_untilZero_parent (hrel : isAbsolute p = false) (hparent : parent p ≠ []) :
    (parent p).untilZero.length ≤ p.untilZero.length := by
  rcases untilZero_cases hrel hparent with hsame | ⟨hwhole, k, hsplit⟩
  · exact Nat.le_of_eq (congrArg List.length hsame.symm)
  · rw [hwhole, hsplit, List.length_append]
    exact Nat.le_add_right _ _

end Path

namespace FileTree

open StackVM.Path (Above)
open Files (endsInDots)

variable {t t₁ t' : FileTree} {l l' : Location} {n : Node} {p q name : Text} {names paths : List Text}

/-! ## Trees -/

/-- Whatever stands somewhere stands in a directory, and the working directory is one. -/
structure Proper (t : FileTree) : Prop where
  inside : ∀ (l : Location) (name : Text) (n : Node), t.node? (l ++ [name]) = some n → t.node? l = some .directory
  here : t.node? t.here = some .directory

theorem Proper.up (ht : t.Proper) (hl : t.node? l = some .directory) : t.node? l.dropLast = some .directory := by
  rcases List.eq_nil_or_concat l with rfl | ⟨front, name, rfl⟩
  · rfl
  · rw [List.concat_eq_append] at hl ⊢
    rw [List.dropLast_concat]
    exact ht.inside front name _ hl

/-- Nothing that stands in a tree is changed or taken away, and what is new is directories. -/
structure Extends (t t' : FileTree) : Prop where
  here : t'.here = t.here
  keeps : ∀ (l : Location) (n : Node), t.node? l = some n → t'.node? l = some n
  new : ∀ (l : Location) (n : Node), t'.node? l = some n → t.node? l = some n ∨ n = .directory

theorem Extends.refl : t.Extends t := ⟨rfl, fun _ _ h => h, fun _ _ h => .inl h⟩

theorem Extends.trans (h : t.Extends t₁) (h' : t₁.Extends t') : t.Extends t' := by
  refine ⟨h'.here.trans h.here, fun l n hl => h'.keeps l n (h.keeps l n hl), fun l n hl => ?_⟩
  rcases h'.new l n hl with hl | hl
  · exact h.new l n hl
  · exact .inr hl

theorem Extends.node?_eq (h : t.Extends t') (hthere : (t.node? l).isSome = true) : t'.node? l = t.node? l := by
  obtain ⟨n, hn⟩ := Option.isSome_iff_exists.mp hthere
  rw [hn, h.keeps l n hn]

theorem Extends.leads (h : t.Extends t') (hs : t.Leads l name l') : t'.Leads l name l' := by
  have hdir := h.keeps l _ hs.through
  cases hs with
  | stay _ hsame => exact .stay hdir hsame
  | up _ hmoves hup => exact .up hdir hmoves hup
  | down _ hname hlong hthere =>
    exact .down hdir hname hlong (by rw [h.node?_eq hthere]; exact hthere)

theorem Extends.followAll (h : t.Extends t') (hf : t.followAll l names = .ok l') :
    t'.followAll l names = .ok l' := by
  induction names generalizing l with
  | nil => exact hf
  | cons name names ih =>
    rw [FileTree.followAll] at hf ⊢
    cases hx : t.follow l name with
    | error e => rw [hx] at hf; cases hf
    | ok l₁ =>
      rw [hx] at hf
      rw [follow_of_leads (h.leads (leads_of_follow hx))]
      exact ih hf

theorem Extends.locate (h : t.Extends t') (hl : t.locate p = .ok l) : t'.locate p = .ok l := by
  unfold FileTree.locate at hl ⊢
  cases hparts : partsOf p.untilZero with
  | error e => rw [hparts] at hl; cases hl
  | ok names =>
    rw [hparts] at hl
    have horigin : t'.origin p = t.origin p := by rw [origin, origin, h.here]
    rw [horigin]
    exact h.followAll hl

theorem Extends.status (h : t.Extends t') (hs : t.status p = .directory) : t'.status p = .directory := by
  obtain ⟨l, hl, hdir⟩ := status_eq_directory.mp hs
  exact status_eq_directory.mpr ⟨l, h.locate hl, h.keeps l _ hdir⟩

theorem extends_put (hnone : t.node? (l ++ [name]) = none) : t.Extends (t.put (l ++ [name]) .directory) := by
  refine ⟨rfl, fun k n hk => ?_, fun k n hk => ?_⟩
  · have hne : k ≠ l ++ [name] := by
      intro heq
      subst heq
      rw [hnone] at hk
      cases hk
    rw [node?_put t (by simp), if_neg hne]
    exact hk
  · rw [node?_put t (by simp)] at hk
    split at hk
    · cases hk
      exact .inr rfl
    · exact .inl hk

theorem status_put (hlocate : (t.put (l ++ [name]) .directory).locate p = .ok (l ++ [name])) :
    (t.put (l ++ [name]) .directory).status p = .directory :=
  status_eq_directory.mpr ⟨_, hlocate, by rw [node?_put t (by simp), if_pos rfl]⟩

theorem status_eq_file : t.status p = .file ↔ ∃ l bytes, t.locate p = .ok l ∧ t.node? l = some (.file bytes) := by
  unfold status
  constructor
  · intro hs
    split at hs
    next l hl =>
      split at hs
      next => cases hs
      next bytes hn => exact ⟨l, bytes, hl, hn⟩
      next => cases hs
    all_goals cases hs
  · intro hs
    obtain ⟨l, bytes, hl, hn⟩ := hs
    rw [hl]
    simp only [hn]

/-- What is put into a directory, in place of anything but a directory. -/
theorem Proper.put (ht : t.Proper) (hdir : t.node? l = some .directory)
    (hfree : t.node? (l ++ [name]) ≠ some .directory) (n : Node) : (t.put (l ++ [name]) n).Proper := by
  have hkeeps : ∀ k, t.node? k = some .directory → (t.put (l ++ [name]) n).node? k = some .directory := by
    intro k hk
    have hne : k ≠ l ++ [name] := by
      rintro rfl
      exact hfree hk
    rw [node?_put t (by simp), if_neg hne]
    exact hk
  refine ⟨fun k w n' hk => ?_, hkeeps _ ht.here⟩
  rw [node?_put t (by simp)] at hk
  split at hk
  next heq =>
    obtain ⟨rfl, -⟩ := List.append_inj' heq rfl
    exact hkeeps _ hdir
  next => exact hkeeps _ (ht.inside k w n' hk)

theorem Proper.makeDirectory (ht : t.Proper) (p : Text) : (t.makeDirectory p).2.Proper := by
  rcases makeDirectory_cases t p with ⟨e, hsame, -⟩ | ⟨l, name, hdir, hnone, hmade, -⟩
  · rw [hsame]
    exact ht
  · rw [hmade]
    exact ht.put hdir (by simp [hnone]) _

theorem Proper.store (ht : t.Proper) (p : Text) (bytes : Bytes) : (t.store p bytes).2.Proper := by
  cases hs : t.store p bytes with
  | mk stored t' =>
    cases stored with
    | false =>
      rw [store_eq_false hs]
      exact ht
    | true =>
      obtain ⟨names, l, name, -, hplace, -, hfree, rfl⟩ := store_eq_true hs
      exact ht.put (place_eq_ok hplace).2.2.1 hfree _

theorem proper_empty : empty.Proper := by
  refine ⟨fun l name n hn => ?_, rfl⟩
  cases l with
  | nil => rfl
  | cons first l =>
    have hne : first :: l ++ [name] ≠ [ofString "work"] := by simp
    rw [node?_of_ne_nil (by simp), empty, List.lookup_cons, beq_false_of_ne hne] at hn
    cases hn

/-! ## A path and its parent -/

theorem locate_congr (hseen : p.untilZero = q.untilZero) (horigin : Path.isAbsolute p = Path.isAbsolute q) :
    t.locate p = t.locate q := by
  rw [locate, locate, hseen, origin, origin, horigin]

theorem origin_relative (hrel : Path.isAbsolute p = false) : t.origin p = t.here := by
  rw [origin, hrel, if_neg (by decide)]

theorem partsOf_eq_ok (hp : p ≠ []) (hlen : p.length ≤ maxPath) : partsOf p = .ok (Path.parts p) := by
  rw [partsOf, if_neg (by simpa using hp), if_neg (Nat.not_lt_of_le hlen)]

theorem length_le_of_locate (hl : t.locate p = .ok l) : p.untilZero ≠ [] ∧ p.untilZero.length ≤ maxPath ∧
    t.followAll (t.origin p) (Path.parts p.untilZero) = .ok l := by
  unfold locate partsOf at hl
  by_cases hempty : p.untilZero.isEmpty = true
  · rw [if_pos hempty] at hl
    cases hl
  by_cases hlong : maxPath < p.untilZero.length
  · rw [if_neg hempty, if_pos hlong] at hl
    cases hl
  · rw [if_neg hempty, if_neg hlong] at hl
    exact ⟨by simpa using hempty, Nat.le_of_not_lt hlong, hl⟩

theorem ne_nil_of_locate (hl : t.locate p = .ok l) : p ≠ [] := by
  intro hnil
  subst hnil
  exact (length_le_of_locate hl).1 rfl

theorem ne_nil_of_status (hs : t.status p = .directory) : p ≠ [] := by
  obtain ⟨l, hl, -⟩ := status_eq_directory.mp hs
  exact ne_nil_of_locate hl

theorem length_le_of_status_missing (hs : t.status p = .missing) : p.untilZero.length ≤ maxPath := by
  by_cases hlong : maxPath < p.untilZero.length
  · have hne : ¬ p.untilZero.isEmpty = true := by
      intro hempty
      rw [List.isEmpty_iff.mp hempty] at hlong
      exact absurd hlong (Nat.not_lt_zero _)
    rw [status, locate, partsOf, if_neg hne, if_pos hlong] at hs
    cases hs
  · exact Nat.le_of_not_lt hlong

/-- The last part of a path is looked for where the parent leads, or in the working directory. -/
theorem Proper.exists_front (ht : t.Proper) (hrel : Path.isAbsolute p = false) (hzero : 0 ∉ p)
    (hs : Path.parent p = [] ∨ t.status (Path.parent p) = .directory) :
    ∃ l front, Path.parts p = front ++ [Path.fileName p] ∧ t.followAll t.here front = .ok l ∧
      t.node? l = some .directory := by
  have hslash := Path.slash_notMem_fileName p
  rcases Path.parent_cases hrel with ⟨-, hwhole⟩ | ⟨hparent, hrel', -, k, hsplit⟩
  · rw [hwhole] at hslash ⊢
    exact ⟨t.here, [], Path.parts_of_no_slash hslash, rfl, ht.here⟩
  · obtain ⟨l, hl, hdir⟩ := status_eq_directory.mp (hs.resolve_left hparent)
    obtain ⟨-, -, hfollow⟩ := length_le_of_locate hl
    have hzero' : 0 ∉ Path.parent p := by
      intro hmem
      rw [hsplit] at hzero
      exact hzero (List.mem_append_left _ hmem)
    rw [Text.untilZero_eq_self hzero', origin_relative hrel'] at hfollow
    refine ⟨l, Path.parts (Path.parent p) ++ List.replicate k [], ?_, ?_, hdir⟩
    · conv => lhs; rw [hsplit]
      rw [Path.parts_append, Path.parts_replicate, Path.parts_of_no_slash hslash, List.append_assoc]
    · rw [followAll_append _ _ hfollow]
      exact followAll_replicate_nil hdir k

/-- What leads to a directory leads there through its parent. -/
theorem status_parent (hrel : Path.isAbsolute p = false) (hparent : Path.parent p ≠ [])
    (hs : t.status p = .directory) : t.status (Path.parent p) = .directory := by
  obtain ⟨l, hl, hdir⟩ := status_eq_directory.mp hs
  have hrel' := Path.isAbsolute_parent hrel
  rcases Path.untilZero_cases hrel hparent with hsame | ⟨hwhole, k, hsplit⟩
  · rw [locate_congr hsame (hrel.trans hrel'.symm)] at hl
    exact status_eq_directory.mpr ⟨l, hl, hdir⟩
  · obtain ⟨-, hlen, hfollow⟩ := length_le_of_locate hl
    rw [hsplit, Path.parts_append] at hfollow
    rw [hsplit, List.length_append] at hlen
    obtain ⟨l₁, hfront, hrest⟩ := followAll_append_eq_ok hfollow
    refine status_eq_directory.mpr ⟨l₁, ?_, ?_⟩
    · rw [locate, hwhole, partsOf_eq_ok hparent (by omega), origin_relative hrel', ← origin_relative hrel]
      exact hfront
    · cases hparts : Path.parts (List.replicate k Path.slash ++ (Path.fileName p).untilZero) with
      | nil => exact absurd hparts (Path.parts_ne_nil _)
      | cons w ws =>
        rw [hparts, followAll] at hrest
        cases hx : t.follow l₁ w with
        | error e => rw [hx] at hrest; cases hrest
        | ok l₂ => exact (leads_of_follow hx).through

theorem status_above (hrel : Path.isAbsolute p = false) (hq : Above p q) (hne : q ≠ [])
    (hs : t.status p = .directory) : t.status q = .directory := by
  induction hq with
  | parent => exact status_parent hrel hne hs
  | up hq ih => exact status_parent (hq.relative hrel) hne (ih (Path.ne_nil_of_parent hne))

theorem status_of_followAll (hp : p.untilZero ≠ []) (hlen : p.untilZero.length ≤ maxPath)
    (hf : t.followAll (t.origin p) (Path.parts p.untilZero) = .ok l) (hdir : t.node? l = some .directory) :
    t.status p = .directory := by
  refine status_eq_directory.mpr ⟨l, ?_, hdir⟩
  rw [locate, partsOf_eq_ok hp hlen]
  exact hf

/-- One point stays in a directory and two go up, to a directory too. -/
theorem Proper.followAll_dots (ht : t.Proper) (hdots : name = ofString "." ∨ name = ofString "..")
    (hl : t.node? l = some .directory) : ∃ l', t.followAll l [name] = .ok l' ∧ t.node? l' = some .directory := by
  rcases hdots with rfl | rfl
  · exact ⟨l, by rw [followAll, follow_of_leads (.stay hl rfl)]; rfl, hl⟩
  · exact ⟨l.dropLast, by rw [followAll, follow_of_leads (.up hl rfl rfl)]; rfl, ht.up hl⟩

/-- What ends in dots leads to a directory if its parent does. -/
theorem Proper.status_of_dots (ht : t.Proper) (hrel : Path.isAbsolute p = false) (hlen : p.untilZero.length ≤ maxPath)
    (hdots : endsInDots p = true) (hs : Path.parent p = [] ∨ t.status (Path.parent p) = .directory) :
    t.status p = .directory := by
  have hname : Path.fileName p = ofString "." ∨ Path.fileName p = ofString ".." := by
    simpa [endsInDots] using hdots
  have hseen : (Path.fileName p).untilZero = Path.fileName p := by
    rcases hname with hname | hname <;> rw [hname] <;> decide
  have hslash : Path.slash ∉ Path.fileName p := by
    rcases hname with hname | hname <;> rw [hname] <;> decide
  by_cases hparent : Path.parent p = []
  · rcases Path.parent_cases hrel with ⟨-, hwhole⟩ | ⟨hsome, -⟩
    · rw [hwhole] at hseen hslash hname
      obtain ⟨l, hl, hdir⟩ := ht.followAll_dots hname ht.here
      refine status_of_followAll ?_ hlen ?_ hdir
      · rw [hseen]
        rcases hname with hname | hname <;> rw [hname] <;> decide
      · rw [hseen, Path.parts_of_no_slash hslash, origin_relative hrel]
        exact hl
    · exact absurd hparent hsome
  · have hs := hs.resolve_left hparent
    have hrel' := Path.isAbsolute_parent hrel
    rcases Path.untilZero_cases hrel hparent with hsame | ⟨hwhole, k, hsplit⟩
    · obtain ⟨l, hl, hdir⟩ := status_eq_directory.mp hs
      rw [← locate_congr hsame (hrel.trans hrel'.symm)] at hl
      exact status_eq_directory.mpr ⟨l, hl, hdir⟩
    · obtain ⟨l, hl, hdir⟩ := status_eq_directory.mp hs
      obtain ⟨-, -, hfront⟩ := length_le_of_locate hl
      rw [hwhole, origin_relative hrel', ← origin_relative hrel] at hfront
      obtain ⟨l', hl', hdir'⟩ := ht.followAll_dots hname hdir
      refine status_of_followAll ?_ hlen ?_ hdir'
      · rw [hsplit]
        simp
      · rw [hsplit, hseen, Path.parts_append, Path.parts_replicate, Path.parts_of_no_slash hslash,
          followAll_append _ _ hfront, followAll_append _ _ (followAll_replicate_nil hdir k)]
        exact hl'

/-! ## Straight paths -/

/-- Without `..` a path goes down, by the names that are names of their own. -/
theorem followAll_straight (hdown : ofString ".." ∉ names) (hf : t.followAll l names = .ok l') :
    l' = l ++ names.filter (!isReserved ·) := by
  induction names generalizing l with
  | nil => cases hf; simp
  | cons name names ih =>
    rw [List.mem_cons, not_or] at hdown
    rw [followAll] at hf
    cases hx : t.follow l name with
    | error e => rw [hx] at hf; cases hf
    | ok l₁ =>
      rw [hx] at hf
      rw [ih hdown.2 hf]
      cases leads_of_follow hx with
      | stay _ hsame => rw [List.filter_cons_of_neg (by simp [isReserved, hsame])]
      | up _ _ hup => exact absurd (beq_iff_eq.mp hup).symm hdown.1
      | down _ hname _ _ =>
        rw [List.filter_cons_of_pos (by simp [hname]), List.append_assoc]
        rfl

theorem Proper.front (ht : t.Proper) {k : Location} (hl : (t.node? (l ++ k)).isSome = true) :
    (t.node? l).isSome = true := by
  induction k generalizing l with
  | nil => simpa using hl
  | cons name k ih =>
    obtain ⟨n, hn⟩ := Option.isSome_iff_exists.mp (ih (l := l ++ [name]) (by simpa using hl))
    rw [ht.inside l name n hn]
    rfl

/-- What was there before, and is reached without `..`, was reached before. -/
theorem Proper.followAll_before (ht : t.Proper) (hext : t.Extends t') (hdown : ofString ".." ∉ names)
    (hf : t'.followAll l names = .ok l') (hthere : (t.node? l').isSome = true) : t.followAll l names = .ok l' := by
  induction names generalizing l with
  | nil => exact hf
  | cons name names ih =>
    have hl : (t.node? l).isSome = true := by
      rw [followAll_straight hdown hf] at hthere
      exact ht.front hthere
    have hdown' : ofString ".." ∉ names := fun hmem => hdown (List.mem_cons_of_mem _ hmem)
    rw [followAll] at hf ⊢
    cases hx : t'.follow l name with
    | error e => rw [hx] at hf; cases hf
    | ok l₁ =>
      rw [hx] at hf
      have hleads := leads_of_follow hx
      have hdir : t.node? l = some .directory := by
        rw [← hext.node?_eq hl]
        exact hleads.through
      have hl₁ : (t.node? l₁).isSome = true := by
        rw [followAll_straight hdown' hf] at hthere
        exact ht.front hthere
      have hback : t.Leads l name l₁ := by
        cases hleads with
        | stay _ hsame => exact .stay hdir hsame
        | up _ hmoves hup => exact .up hdir hmoves hup
        | down _ hname hlong _ => exact .down hdir hname hlong hl₁
      rw [follow_of_leads hback]
      exact ih hdown' hf

theorem Proper.locate_before (ht : t.Proper) (hext : t.Extends t') (hp : Path.Straight p) (hl : t'.locate p = .ok l)
    (hthere : (t.node? l).isSome = true) : t.locate p = .ok l := by
  obtain ⟨hne, hlen, hfollow⟩ := length_le_of_locate hl
  have hwhole := Text.untilZero_eq_self hp.whole
  have horigin : t'.origin p = t.origin p := by rw [origin, origin, hext.here]
  rw [locate, partsOf_eq_ok hne hlen]
  rw [horigin, hwhole] at hfollow
  rw [hwhole]
  exact ht.followAll_before hext hp.down hfollow hthere

theorem Proper.status_file_before (ht : t.Proper) (hext : t.Extends t') (hp : Path.Straight p)
    (hs : t'.status p = .file) : t.status p = .file := by
  obtain ⟨l, bytes, hl, hfile⟩ := status_eq_file.mp hs
  have hbefore : t.node? l = some (.file bytes) := (hext.new l _ hfile).resolve_right (by simp)
  exact status_eq_file.mpr ⟨l, bytes, ht.locate_before hext hp hl (by rw [hbefore]; rfl), hbefore⟩

/-- A straight path with a name of its own leads to no place that is on the way. -/
theorem locate_above_ne {a : Text} (hp : Path.Straight p) (hrel : Path.isAbsolute p = false)
    (hname : isReserved (Path.fileName p) = false) (ha : Above p a) (hl : t.locate p = .ok l) :
    t.locate a ≠ .ok l := by
  intro hl'
  obtain ⟨-, -, hfollow⟩ := length_le_of_locate hl
  obtain ⟨-, -, hfollow'⟩ := length_le_of_locate hl'
  have hne := ne_nil_of_locate hl'
  have hstraight := ha.straight hrel hne hp
  rw [Text.untilZero_eq_self hp.whole, origin_relative hrel] at hfollow
  rw [Text.untilZero_eq_self hstraight.whole, origin_relative (ha.relative hrel)] at hfollow'
  have hwhole := followAll_straight hp.down hfollow
  have hfront := followAll_straight hstraight.down hfollow'
  obtain ⟨rest, hsplit⟩ := ha.split hrel hne
  rw [hsplit, Path.parts_append, List.filter_append, ← List.append_assoc, ← hfront] at hwhole
  have hnone : (Path.parts rest).filter (!isReserved ·) = [] := List.self_eq_append_right.mp hwhole
  rw [hsplit, Path.fileName_append] at hname
  have hlast := List.filter_eq_nil_iff.mp hnone _ (Path.fileName_mem_parts rest)
  simp [hname] at hlast

end FileTree

end StackVM
