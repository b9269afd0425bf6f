/-
  StackVM.Proofs.Files.Tree — what is stored is what is read.

  A file that is stored changes what stands at one location, and never at the location of a directory. A path that led
  somewhere before leads there still: where it passes through a directory it passes through it now, and what it came
  upon is there. So the path under which a file was stored leads to it.

  - `node?_put`: what stands where.
  - `leads_of_follow`, `Leads.put`, `followAll_put`: paths lead where they have led.
  - `followAll_put_place`, `openFile_of_store`: a path leads to what was put at its place, and a file is read as it was
    stored.
-/

import StackVM.Files.Tree

namespace StackVM

/-- One act after another. -/
theorem FileM.run_bind {α β : Type} (act : FileM α) (k : α → FileM β) (t : FileTree) :
    (act >>= k).run t = (k (act.run t).1).run (act.run t).2 := rfl

namespace FileTree

open Text (ofString)

variable {t t' : FileTree} {l l' : Location} {n : Node} {name p : Text} {names : List Text}

/-! ## One location -/

theorem lookup_filter_ne (nodes : List (Location × Node)) (hl : l' ≠ l) :
    (nodes.filter fun e => e.1 != l).lookup l' = nodes.lookup l' := by
  induction nodes with
  | nil => rfl
  | cons e nodes ih =>
    rcases e with ⟨k, n⟩
    by_cases hk : k = l
    · subst hk
      rw [List.filter_cons_of_neg (by simp), ih, List.lookup_cons, beq_false_of_ne hl]
    · rw [List.filter_cons_of_pos (by simpa using hk), List.lookup_cons, List.lookup_cons, ih]

theorem node?_nil (t : FileTree) : t.node? [] = some .directory := rfl

theorem node?_of_ne_nil (hl : l ≠ []) : t.node? l = t.nodes.lookup l := by
  simp [node?, hl]

/-- A location other than the root has what was put there last, and the others have what they had. -/
theorem node?_put (t : FileTree) (hl : l ≠ []) (n : Node) (l' : Location) :
    (t.put l n).node? l' = if l' = l then some n else t.node? l' := by
  by_cases hroot : l' = []
  · subst hroot
    rw [node?_nil, node?_nil, if_neg (Ne.symm hl)]
  · rw [node?_of_ne_nil hroot, node?_of_ne_nil hroot, put, List.lookup_cons]
    by_cases heq : l' = l
    · simp [heq]
    · rw [beq_false_of_ne heq, if_neg heq]
      exact lookup_filter_ne t.nodes heq

/-! ## Paths -/

/-- One part of a path: stay, go up or go down to what is there. Each is through a directory. -/
inductive Leads (t : FileTree) (l : Location) (name : Text) : Location → Prop
  | stay : t.node? l = some .directory → (name.isEmpty || name == ofString ".") = true → Leads t l name l
  | up : t.node? l = some .directory → (name.isEmpty || name == ofString ".") = false → (name == ofString "..") = true →
      Leads t l name l.dropLast
  | down : t.node? l = some .directory → isReserved name = false → name.length ≤ maxName →
      (t.node? (l ++ [name])).isSome = true → Leads t l name (l ++ [name])

theorem Leads.through (hs : t.Leads l name l') : t.node? l = some .directory := by
  cases hs <;> assumption

theorem follow_of_leads (hs : t.Leads l name l') : t.follow l name = .ok l' := by
  cases hs with
  | stay hdir hsame => simp only [follow, hdir, hsame, if_true]
  | up hdir hmoves hup => simp only [follow, hdir, hmoves, hup, if_neg Bool.false_ne_true, if_true]
  | down hdir hname hlong hthere =>
    simp only [isReserved, Bool.or_eq_false_iff] at hname
    simp [follow, hdir, hname, hthere, Nat.not_lt_of_le hlong]

theorem leads_of_follow (hf : t.follow l name = .ok l') : t.Leads l name l' := by
  unfold follow at hf
  cases hdir : t.node? l with
  | none => rw [hdir] at hf; cases hf
  | some n =>
    cases n with
    | file bytes => rw [hdir] at hf; cases hf
    | directory =>
      simp only [hdir] at hf
      by_cases hsame : (name.isEmpty || name == ofString ".") = true
      · rw [if_pos hsame] at hf
        cases hf
        exact .stay hdir hsame
      have hmoves := Bool.eq_false_iff.mpr hsame
      rw [if_neg hsame] at hf
      by_cases hup : (name == ofString "..") = true
      · rw [if_pos hup] at hf
        cases hf
        exact .up hdir hmoves hup
      rw [if_neg hup] at hf
      by_cases hlong : maxName < name.length
      · rw [if_pos hlong] at hf; cases hf
      by_cases hthere : (t.node? (l ++ [name])).isSome = true
      · rw [if_neg hlong, if_pos hthere] at hf
        cases hf
        exact .down hdir (by rw [isReserved, hmoves, Bool.eq_false_iff.mpr hup]; rfl) (Nat.le_of_not_lt hlong) hthere
      · rw [if_neg hlong, if_neg hthere] at hf; cases hf

/-- What is put in the place of anything but a directory leads no path elsewhere. -/
theorem Leads.put {k : Location} (hs : t.Leads l name l') (hk : k ≠ []) (hfree : t.node? k ≠ some .directory)
    (n : Node) : (t.put k n).Leads l name l' := by
  have hl : l ≠ k := fun heq => hfree (heq ▸ hs.through)
  have hdir : (t.put k n).node? l = some .directory := by
    rw [node?_put t hk, if_neg hl]
    exact hs.through
  cases hs with
  | stay _ hsame => exact .stay hdir hsame
  | up _ hmoves hup => exact .up hdir hmoves hup
  | down _ hname hlong hthere =>
    refine .down hdir hname hlong ?_
    rw [node?_put t hk]
    split
    · rfl
    · exact hthere

theorem followAll_put {k : Location} (hk : k ≠ []) (hfree : t.node? k ≠ some .directory) (n : Node)
    (hf : t.followAll l names = .ok l') : (t.put k n).followAll l names = .ok l' := by
  induction names generalizing l with
  | nil => exact hf
  | cons name names ih =>
    rw [followAll] at hf ⊢
    cases hx : t.follow l name with
    | error e => rw [hx] at hf; cases hf
    | ok l₁ =>
      rw [hx] at hf
      rw [follow_of_leads ((leads_of_follow hx).put hk hfree n)]
      exact ih hf

theorem followAll_append (names names' : List Text) (hf : t.followAll l names = .ok l') :
    t.followAll l (names ++ names') = t.followAll l' names' := by
  induction names generalizing l with
  | nil => cases hf; rfl
  | cons name names ih =>
    rw [List.cons_append, followAll]
    rw [followAll] at hf
    cases hx : t.follow l name with
    | error e => rw [hx] at hf; cases hf
    | ok l₁ => rw [hx] at hf; exact ih hf

theorem followAll_append_eq_ok {names' : List Text} (hf : t.followAll l (names ++ names') = .ok l') :
    ∃ l₁, t.followAll l names = .ok l₁ ∧ t.followAll l₁ names' = .ok l' := by
  induction names generalizing l with
  | nil => exact ⟨l, rfl, hf⟩
  | cons name names ih =>
    rw [List.cons_append, followAll] at hf
    rw [followAll]
    cases hx : t.follow l name with
    | error e => rw [hx] at hf; cases hf
    | ok l₁ => rw [hx] at hf; exact ih hf

/-! ## Files -/

theorem place_eq_ok (hp : t.place names p = .ok (l, name)) :
    name = names.getLast?.getD [] ∧ t.followAll (t.origin p) names.dropLast = .ok l ∧
      t.node? l = some .directory ∧ name.length ≤ maxName := by
  unfold place at hp
  cases hf : t.followAll (t.origin p) names.dropLast with
  | error e => rw [hf] at hp; cases hp
  | ok l₁ =>
    simp only [hf] at hp
    cases hn : t.node? l₁ with
    | none => rw [hn] at hp; cases hp
    | some n =>
      cases n with
      | file bytes => rw [hn] at hp; cases hp
      | directory =>
        simp only [hn] at hp
        split at hp
        · cases hp
        next hlong => cases hp; exact ⟨rfl, rfl, hn, Nat.le_of_not_lt hlong⟩

/-- What storing a file comes to, where it succeeds. -/
theorem store_eq_true {bytes : Bytes} (hs : t.store p bytes = (true, t')) :
    ∃ names l name, partsOf p.untilZero = .ok names ∧ t.place names p = .ok (l, name) ∧ isReserved name = false ∧
      t.node? (l ++ [name]) ≠ some .directory ∧ t' = t.put (l ++ [name]) (.file bytes) := by
  unfold store at hs
  cases hparts : partsOf p.untilZero with
  | error e => rw [hparts] at hs; cases hs
  | ok names =>
    simp only [hparts] at hs
    cases hplace : t.place names p with
    | error e => rw [hplace] at hs; cases hs
    | ok x =>
      rcases x with ⟨l, name⟩
      simp only [hplace] at hs
      split at hs
      · cases hs
      next hname =>
        split at hs
        · cases hs
        next hfree =>
          cases hs
          exact ⟨names, l, name, rfl, hplace, Bool.eq_false_iff.mpr hname, hfree, rfl⟩

/-- Once something stands at the place that a path gives it, the path leads there. -/
theorem followAll_put_place (hplace : t.place names p = .ok (l, name)) (hname : isReserved name = false)
    (hfree : t.node? (l ++ [name]) ≠ some .directory) (n : Node) :
    (t.put (l ++ [name]) n).followAll (t.origin p) names = .ok (l ++ [name]) := by
  obtain ⟨hlast, hfollow, hdir, hlong⟩ := place_eq_ok hplace
  have hk : l ++ [name] ≠ [] := by simp
  have hl : l ≠ l ++ [name] := by simp
  have hnew : (t.put (l ++ [name]) n).node? (l ++ [name]) = some n := by
    rw [node?_put t hk, if_pos rfl]
  have hdir' : (t.put (l ++ [name]) n).node? l = some .directory := by
    rw [node?_put t hk, if_neg hl]
    exact hdir
  have hne : names ≠ [] := by
    rintro rfl
    rw [hlast] at hname
    cases hname
  have hnames : names = names.dropLast ++ [name] := by
    rw [hlast, List.getLast?_eq_some_getLast hne, Option.getD_some, List.dropLast_concat_getLast hne]
  rw [hnames, followAll_append _ _ (followAll_put hk hfree _ hfollow), followAll,
    follow_of_leads (.down hdir' hname hlong (by rw [hnew]; rfl))]
  rfl

/-- The path under which a file was stored leads to it. -/
theorem locate_of_store {bytes : Bytes} (hs : t.store p bytes = (true, t')) :
    ∃ l, l ≠ [] ∧ t.node? l ≠ some .directory ∧ t' = t.put l (.file bytes) ∧ t'.locate p = .ok l := by
  obtain ⟨names, l, name, hparts, hplace, hname, hfree, rfl⟩ := store_eq_true hs
  refine ⟨l ++ [name], by simp, hfree, rfl, ?_⟩
  rw [locate, hparts]
  exact followAll_put_place hplace hname hfree _

/-- A file is read as it was stored. -/
theorem openFile_of_store {bytes : Bytes} (hs : t.store p bytes = (true, t')) :
    t'.openFile p = some (.file bytes) := by
  obtain ⟨l, hl, -, rfl, hlocate⟩ := locate_of_store hs
  rw [openFile, hlocate]
  simp only [node?_put t hl, if_true]

end FileTree

end StackVM
