/-
  StackVM.Proofs.Files.Paths — a path and its parent.

  A path that is not absolute has no parent, or it is the parent, one slash or more and its last part. The last part has
  no slash in it and the parent does not end in one. So the parts of a path are those of its parent, a few empty ones
  and the last one.

  - `parts_append`, `parts_replicate`: the parts of paths put together.
  - `parent_cases`: what a path is made of.
  - `withExtension_of_base`, `withExtension_of_extension_eq_nil`: a new extension stands in the place of the old one,
    or behind the path where there is none; `extension_of_fileName` and `extension_eq_nil_iff` tell which it is.
  - `untilZero_cases`: what is seen of it, a zero byte being the end.
-/

import StackVM.Files.Path

namespace StackVM

/-- Where all that a predicate holds of is one value, what is dropped at the end of a list is that value again and
again. -/
theorem eq_append_replicate {α : Type} {p : α → Bool} {c : α} (hp : ∀ x, p x = true → x = c) (l : List α) :
    ∃ k, l = (l.reverse.dropWhile p).reverse ++ List.replicate k c := by
  refine ⟨(l.reverse.takeWhile p).length, ?_⟩
  have htaken : ∀ x ∈ l.reverse.takeWhile p, x = c :=
    fun x hx => hp x (List.all_eq_true.mp List.all_takeWhile x hx)
  calc l
      = (l.reverse.takeWhile p ++ l.reverse.dropWhile p).reverse := by
        rw [List.takeWhile_append_dropWhile, List.reverse_reverse]
    _ = (l.reverse.dropWhile p).reverse ++ (l.reverse.takeWhile p).reverse := List.reverse_append
    _ = _ := congrArg _ (List.eq_replicate_iff.mpr
        ⟨List.length_reverse, fun x hx => htaken x (List.mem_reverse.mp hx)⟩)

theorem Text.untilZero_append (a b : Text) :
    (a ++ b).untilZero = if 0 ∈ a then a.untilZero else a ++ b.untilZero := by
  induction a with
  | nil => simp
  | cons c a ih =>
    by_cases hc : c = 0
    · subst hc
      simp [untilZero]
    · have hcons : ∀ t : Text, untilZero (c :: t) = c :: untilZero t := by
        intro t
        simp [untilZero, hc]
      rw [List.cons_append, hcons, hcons, ih]
      simp only [List.mem_cons, Ne.symm hc, false_or]
      split <;> rfl

theorem Text.untilZero_eq_self {a : Text} (h : 0 ∉ a) : a.untilZero = a := by
  have hwhole := untilZero_append a []
  rw [List.append_nil, if_neg h] at hwhole
  exact hwhole.trans (List.append_nil _)

namespace Path

open Text (ofString)

variable {p q : Text}

/-! ## Parts -/

theorem parts_ne_nil (p : Text) : parts p ≠ [] := by
  cases p with
  | nil => simp [parts]
  | cons b p =>
    rw [parts]
    split
    · simp
    · split <;> simp

theorem parts_of_no_slash (h : slash ∉ p) : parts p = [p] := by
  induction p with
  | nil => rfl
  | cons b p ih =>
    rw [List.mem_cons, not_or] at h
    rw [parts, if_neg (by simpa using Ne.symm h.1), ih h.2]

theorem parts_append (a b : Text) : parts (a ++ slash :: b) = parts a ++ parts b := by
  induction a with
  | nil => simp [parts]
  | cons c a ih =>
    rw [List.cons_append, parts, ih]
    by_cases hc : (c == slash) = true
    · rw [if_pos hc, parts, if_pos hc]
      rfl
    · rw [if_neg hc, parts, if_neg hc]
      cases ha : parts a with
      | nil => exact absurd ha (parts_ne_nil a)
      | cons w ws => rfl

theorem parts_replicate (k : Nat) (name : Text) :
    parts (List.replicate k slash ++ name) = List.replicate k [] ++ parts name := by
  induction k with
  | zero => rfl
  | succ k ih =>
    rw [List.replicate_succ, List.cons_append, parts, if_pos (by simp), ih]
    rfl

/-! ## The last part -/

theorem fileName_append (a b : Text) : fileName (a ++ slash :: b) = fileName b := by
  rw [fileName, fileName, parts_append, List.getLast?_append, List.getLast?_eq_some_getLast (parts_ne_nil b)]
  rfl

theorem fileName_of_no_slash (h : slash ∉ p) : fileName p = p := by
  rw [fileName, parts_of_no_slash h]
  rfl

theorem fileName_mem_parts (p : Text) : fileName p ∈ parts p := by
  rw [fileName, List.getLast?_eq_some_getLast (parts_ne_nil p)]
  exact List.getLast_mem _

theorem split_at_last {c : UInt8} (h : c ∈ p) : ∃ a b, p = a ++ c :: b ∧ c ∉ b := by
  obtain ⟨b, a, hsplit, hb⟩ := List.eq_append_cons_of_mem (List.mem_reverse.mpr h)
  refine ⟨a.reverse, b.reverse, ?_, fun hmem => hb (List.mem_reverse.mp hmem)⟩
  rw [← List.reverse_inj, hsplit]
  simp

theorem ne_nil_of_fileName (hname : fileName p ≠ []) : p ≠ [] := by
  intro hp
  subst hp
  exact hname rfl

theorem slash_notMem_fileName (p : Text) : slash ∉ fileName p := by
  by_cases hslash : slash ∈ p
  · obtain ⟨a, b, rfl, hb⟩ := split_at_last hslash
    rw [fileName_append, fileName_of_no_slash hb]
    exact hb
  · rw [fileName_of_no_slash hslash]
    exact hslash

theorem getLast?_of_fileName_eq_nil (hname : fileName p = []) (hp : p ≠ []) : p.getLast? = some slash := by
  by_cases hslash : slash ∈ p
  · obtain ⟨a, b, rfl, hb⟩ := split_at_last hslash
    rw [fileName_append, fileName_of_no_slash hb] at hname
    subst hname
    simp
  · rw [fileName_of_no_slash hslash] at hname
    exact absurd hname hp

theorem isAbsolute_append (hp : p ≠ []) (b : Text) : isAbsolute (p ++ b) = isAbsolute p := by
  cases p with
  | nil => exact absurd rfl hp
  | cons c p => rfl

theorem not_all_slash (hrel : isAbsolute p = false) (hp : p ≠ []) : ¬ p.all (· == slash) = true := by
  cases p with
  | nil => exact absurd rfl hp
  | cons c p =>
    intro hall
    have hc : c = slash := beq_iff_eq.mp (List.all_eq_true.mp hall c List.mem_cons_self)
    subst hc
    cases hrel

/-- A text without the slashes at its end. -/
def bare (p : Text) : Text := (p.reverse.dropWhile (· == slash)).reverse

theorem eq_bare_append (p : Text) : ∃ k, p = bare p ++ List.replicate k slash :=
  eq_append_replicate (fun _ hx => beq_iff_eq.mp hx) p

theorem bare_slash (p : Text) : bare (p ++ [slash]) = bare p := by
  simp [bare]

theorem getLast?_bare (p : Text) : (bare p).getLast? ≠ some slash := by
  intro hlast
  rw [bare, List.getLast?_reverse] at hlast
  have hhead := List.head?_dropWhile_not (· == slash) p.reverse
  rw [hlast] at hhead
  simp at hhead

/-- A path that is not absolute has only its last part, or there is something in front of it. -/
theorem parent_cases (hrel : isAbsolute p = false) :
    (parent p = [] ∧ fileName p = p) ∨
    (parent p ≠ [] ∧ isAbsolute (parent p) = false ∧ fileName (parent p) ≠ [] ∧
      ∃ k, p = parent p ++ slash :: (List.replicate k slash ++ fileName p)) := by
  by_cases hslash : slash ∈ p
  · right
    obtain ⟨a, b, rfl, hb⟩ := split_at_last hslash
    have hname : fileName (a ++ slash :: b) = b := (fileName_append a b).trans (fileName_of_no_slash hb)
    have hbare : bare a ≠ [] := by
      intro hempty
      obtain ⟨k, hk⟩ := eq_bare_append a
      rw [hempty, List.nil_append] at hk
      rw [hk] at hrel
      cases k with
      | zero => cases hrel
      | succ k => cases hrel
    have htake : (a ++ slash :: b).take ((a ++ slash :: b).length - b.length) = a ++ [slash] := by
      have hlen : (a ++ slash :: b).length - b.length = (a ++ [slash]).length := by simp; omega
      have hfront : a ++ slash :: b = (a ++ [slash]) ++ b := by simp
      rw [hlen, hfront, List.take_left]
    have hparent : parent (a ++ slash :: b) = bare a := by
      have hsome : (bare a).isEmpty = false := by simpa using hbare
      rw [parent, if_neg (not_all_slash hrel (by simp)), hname]
      simp only [htake]
      rw [show ((a ++ [slash]).reverse.dropWhile (· == slash)).reverse = bare a from bare_slash a, hsome,
        Bool.false_and, if_neg (by decide)]
    obtain ⟨k, hk⟩ := eq_bare_append a
    have hwhole : a ++ slash :: b = bare a ++ slash :: (List.replicate k slash ++ b) := by
      conv => lhs; rw [hk]
      rw [List.append_assoc, ← List.cons_append, ← List.replicate_succ, List.replicate_succ', List.append_assoc]
      rfl
    rw [hparent, hname]
    refine ⟨hbare, ?_, fun hempty => ?_, k, hwhole⟩
    · rw [← isAbsolute_append hbare (slash :: (List.replicate k slash ++ b)), ← hwhole]
      exact hrel
    · exact getLast?_bare a (getLast?_of_fileName_eq_nil hempty hbare)
  · left
    refine ⟨?_, fileName_of_no_slash hslash⟩
    rw [parent, fileName_of_no_slash hslash]
    by_cases hp : p = []
    · subst hp
      rfl
    · rw [if_neg (not_all_slash hrel hp)]
      simp [hrel]

theorem eq_parent_append (hrel : isAbsolute p = false) (hparent : parent p ≠ []) :
    ∃ rest, p = parent p ++ slash :: rest := by
  rcases parent_cases hrel with ⟨hnone, -⟩ | ⟨-, -, -, k, hsplit⟩
  · exact absurd hnone hparent
  · exact ⟨_, hsplit⟩

theorem fileName_parent_ne_nil (hrel : isAbsolute p = false) (hparent : parent p ≠ []) : fileName (parent p) ≠ [] := by
  rcases parent_cases hrel with ⟨hnone, -⟩ | ⟨-, -, hname, -⟩
  · exact absurd hnone hparent
  · exact hname

theorem isAbsolute_parent (hrel : isAbsolute p = false) : isAbsolute (parent p) = false := by
  rcases parent_cases hrel with ⟨hnone, -⟩ | ⟨-, hparent, -⟩
  · rw [hnone]
    rfl
  · exact hparent

theorem ne_nil_of_parent (hparent : parent p ≠ []) : p ≠ [] := by
  intro hp
  subst hp
  exact hparent rfl

theorem length_parent_lt (hrel : isAbsolute p = false) (hp : p ≠ []) : (parent p).length < p.length := by
  rcases parent_cases hrel with ⟨hnone, -⟩ | ⟨-, -, -, k, hsplit⟩
  · rw [hnone]
    exact List.length_pos_iff.mpr hp
  · rw [congrArg List.length hsplit, List.length_append, List.length_cons]
    omega

theorem ancestors_cons (hrel : isAbsolute p = false) (hparent : parent p ≠ []) :
    ancestors p = parent p :: ancestors (parent p) := by
  rw [ancestors, dif_pos (length_parent_lt hrel (ne_nil_of_parent hparent)), if_neg (by simpa using hparent)]

theorem ancestors_of_parent_eq_nil (hparent : parent p = []) : ancestors p = [] := by
  rw [ancestors, hparent]
  split <;> rfl

/-! ## The extension -/

theorem fileName_suffix (p : Text) : fileName p <:+ p := by
  by_cases hslash : slash ∈ p
  · obtain ⟨a, b, rfl, hb⟩ := split_at_last hslash
    rw [fileName_append, fileName_of_no_slash hb]
    exact ⟨a ++ [slash], by simp⟩
  · exact ⟨[], fileName_of_no_slash hslash⟩

theorem extension_suffix (p : Text) : extension p <:+ p := by
  refine List.IsSuffix.trans ?_ (fileName_suffix p)
  rw [extension]
  dsimp only
  split
  · exact List.nil_suffix
  · split
    · exact List.drop_suffix _ _
    · exact List.nil_suffix

/-- A path is a base and its extension. -/
theorem exists_base (p : Text) : ∃ base, p = base ++ extension p := by
  obtain ⟨base, hbase⟩ := extension_suffix p
  exact ⟨base, hbase.symm⟩

/-- The new extension stands behind the base. -/
theorem withExtension_of_base {base : Text} (hbase : p = base ++ extension p) (ext : Text) :
    withExtension p ext = base ++ ext := by
  have hlen : p.length - (extension p).length = base.length := by
    have := congrArg List.length hbase
    rw [List.length_append] at this
    omega
  rw [withExtension, hlen]
  conv => lhs; rw [hbase]
  rw [List.take_left]

/-- Where there is no extension, the new one is put behind the path. -/
theorem withExtension_of_extension_eq_nil (hnone : extension p = []) (ext : Text) : withExtension p ext = p ++ ext :=
  withExtension_of_base (by rw [hnone, List.append_nil]) ext

/-- Looking for a point from the end passes over what has none. -/
theorem takeWhile_reverse_append (front : Text) {tail : Text} (htail : point ∉ tail) :
    (front ++ tail).reverse.takeWhile (· != point) = tail.reverse ++ front.reverse.takeWhile (· != point) := by
  have hall : ∀ b ∈ tail.reverse, (b != point) = true := by
    intro b hb
    rw [List.mem_reverse] at hb
    simpa using fun he : b = point => htail (he ▸ hb)
  rw [List.reverse_append, List.takeWhile_append_of_pos hall]

/-- The extension is the last point of the name and what follows it, if the point has something in front of it and the
name is not two points. -/
theorem extension_of_fileName {stem tail : Text} (hname : fileName p = stem ++ point :: tail) (hstem : stem ≠ [])
    (htail : point ∉ tail) (hparent : fileName p ≠ ofString "..") : extension p = point :: tail := by
  have hone : fileName p ≠ ofString "." := by
    intro he
    have hlen := congrArg List.length (hname.symm.trans he)
    have hpos := List.length_pos_iff.mpr hstem
    have hshort : (ofString ".").length = 1 := by decide
    simp only [hshort, List.length_append, List.length_cons] at hlen
    omega
  have hfound : ((stem ++ point :: tail).reverse.takeWhile (· != point)).length = tail.length := by
    rw [List.append_cons, takeWhile_reverse_append _ htail]
    simp
  have hpos := List.length_pos_iff.mpr hstem
  rw [extension]
  dsimp only
  rw [if_neg (by simp [hone, hparent]), hname, hfound, List.length_append, List.length_cons, if_pos (by omega),
    show stem.length + (tail.length + 1) - tail.length - 1 = stem.length by omega, List.drop_left]

/-- There is no extension where the name is two points or has no point, a point that starts it aside. -/
theorem extension_eq_nil_iff : extension p = [] ↔ fileName p = ofString ".." ∨ point ∉ (fileName p).tail := by
  by_cases hparent : fileName p = ofString ".."
  · simp [extension, hparent]
  cases hname : fileName p with
  | nil => simp [extension, hname]
  | cons c rest =>
    rw [List.tail_cons]
    by_cases hpoint : point ∈ rest
    · obtain ⟨stem, tail, rfl, htail⟩ := split_at_last hpoint
      have hsplit : fileName p = (c :: stem) ++ point :: tail := hname
      have hext := extension_of_fileName hsplit (List.cons_ne_nil _ _) htail hparent
      simp [hext, ← hname, hparent]
    · have hlong : rest.length ≤ ((c :: rest).reverse.takeWhile (· != point)).length := by
        rw [← List.singleton_append, takeWhile_reverse_append _ hpoint, List.length_append, List.length_reverse]
        exact Nat.le_add_right _ _
      have hnone : extension p = [] := by
        rw [extension]
        dsimp only
        split
        · rfl
        · rw [hname, List.length_cons, if_neg (by omega)]
      simp [hnone, hpoint]

example : withExtension (ofString "a.b/c.d.vna") (ofString ".vbc") = ofString "a.b/c.d.vbc" := by decide

example : withExtension (ofString "a.b/.vna") (ofString ".vbc") = ofString "a.b/.vna.vbc" := by decide

/-! ## What is seen of a path -/

/-- A path is seen as its parent is, if there is a zero byte in the parent. Otherwise the parent is seen as it is. -/
theorem untilZero_cases (hrel : isAbsolute p = false) (hparent : parent p ≠ []) :
    p.untilZero = (parent p).untilZero ∨
    ((parent p).untilZero = parent p ∧
      ∃ k, p.untilZero = parent p ++ slash :: (List.replicate k slash ++ (fileName p).untilZero)) := by
  rcases parent_cases hrel with ⟨hnone, -⟩ | ⟨-, -, -, k, hsplit⟩
  · exact absurd hnone hparent
  have hslash : (0 : UInt8) ∉ List.replicate (k + 1) slash := by
    intro hzero
    exact absurd (List.eq_of_mem_replicate hzero) (by decide)
  have hseen := congrArg Text.untilZero hsplit
  rw [Text.untilZero_append, ← List.cons_append, ← List.replicate_succ, Text.untilZero_append, if_neg hslash] at hseen
  by_cases hzero : (0 : UInt8) ∈ parent p
  · left
    rw [hseen, if_pos hzero]
  · right
    rw [if_neg hzero] at hseen
    exact ⟨Text.untilZero_eq_self hzero, k, hseen⟩

end Path

end StackVM
