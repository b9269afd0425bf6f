/-
  StackVM.Proofs.Heap.Counts — what a reference count counts.

  An object is made with one reference to it; every retain adds one and every release drops one. `references` is their
  number, told from the history alone and without a bound. The entry's own count is a word of 32 bits that goes up by
  one and down by one with it, and nothing looks whether it still fits, so it is that number modulo 2^32. `Counts es h`
  says so of the objects that are there.

  - `Change.count`: what one use makes of the count of an object that is there afterwards.
  - `Counts.change`: the count goes on to be the number of references.
  - `Change.gone_iff`: a release frees the object when it finds the count at one.
-/

import StackVM.Proofs.Heap.Effects
import StackVM.Proofs.Heap.Generations

namespace StackVM

namespace Heap

/-! ## References, told from the history -/

namespace Event

/-- One more reference to the object. -/
def adds (x : Handle) : Event → Bool
  | retained y => y == x
  | _ => false

/-- One reference to the object less. -/
def drops (x : Handle) : Event → Bool
  | released y _ => y == x
  | _ => false

end Event

/-- The retains of an object since it was last made. -/
def retains (es : List Event) (x : Handle) : Nat := (eventsSince es x).countP (·.adds x)

/-- The releases of an object since it was last made. -/
def releases (es : List Event) (x : Handle) : Nat := (eventsSince es x).countP (·.drops x)

/-- How many references to an object there are: one from the start, one more with every retain, one less with every
release. -/
def references (es : List Event) (x : Handle) : Nat := 1 + retains es x - releases es x

section

variable (es : List Event) (x : Handle)

theorem eventsSince_made : eventsSince (es ++ [.made x]) x = [] := by
  simp [eventsSince]

theorem eventsSince_other {e : Event} (he : e ≠ .made x) : eventsSince (es ++ [e]) x = e :: eventsSince es x := by
  simp [eventsSince, he]

theorem retains_other {e : Event} (he : e ≠ .made x) :
    retains (es ++ [e]) x = retains es x + if e.adds x then 1 else 0 := by
  rw [retains, eventsSince_other es x he, List.countP_cons, retains]

theorem releases_other {e : Event} (he : e ≠ .made x) :
    releases (es ++ [e]) x = releases es x + if e.drops x then 1 else 0 := by
  rw [releases, eventsSince_other es x he, List.countP_cons, releases]

theorem retains_made : retains (es ++ [.made x]) x = 0 := by rw [retains, eventsSince_made]; rfl

theorem releases_made : releases (es ++ [.made x]) x = 0 := by rw [releases, eventsSince_made]; rfl

theorem retains_retained : retains (es ++ [.retained x]) x = retains es x + 1 := by
  rw [retains_other es x (by simp)]; simp [Event.adds]

theorem releases_retained : releases (es ++ [.retained x]) x = releases es x :=
  releases_other es x (by simp)

theorem retains_released (gone : Bool) : retains (es ++ [.released x gone]) x = retains es x :=
  retains_other es x (by simp)

theorem releases_released (gone : Bool) : releases (es ++ [.released x gone]) x = releases es x + 1 := by
  rw [releases_other es x (by simp)]; simp [Event.drops]

end

/-! ## What a change makes of the count -/

variable {c : Config} {h h' : Heap}

theorem refCountAt_congr {i : UInt32} (he : h'.entries[i.toNat]? = h.entries[i.toNat]?) :
    h'.refCountAt i = h.refCountAt i := by
  simp only [refCountAt, he]

theorem refCountAt_updateEntry {i : UInt32} {e : Entry} (he : h.entries[i.toNat]? = some e) (f : Entry → Entry) :
    (h.updateEntry i f).refCountAt i = (f e).refCount :=
  refCountAt_of_entry (by rw [entries_updateEntry, if_pos rfl, he]; rfl)

/-- Who counts references does not make or free an object. -/
theorem isValid_recount (i : UInt32) (count : Entry → UInt32) (x : Handle) :
    (h.updateEntry i fun e => { e with refCount := count e }).isValid x = h.isValid x := by
  apply isValid_updateEntry
  exact fun _ => ⟨rfl, rfl⟩

/-- An event that neither makes the object nor adds or drops a reference to it. -/
def Event.Aside (x : Handle) (e : Event) : Prop := e ≠ .made x ∧ e.adds x = false ∧ e.drops x = false

theorem Event.aside_of_handle? {x z : Handle} {e : Event} (he : e.handle? = some z) (hne : z ≠ x) : e.Aside x := by
  cases e with
  | made | wrote | retained | released => cases he; simp [Aside, adds, drops, hne]
  | collected => cases he

/-- An object that is there after a change has just been made, with one reference, or was there before. Then one
reference has been added or dropped, or none. -/
theorem Change.count {e : Option Event} (hs : Sound c h) (hc : Change h e h') {x : Handle} (hx : h'.isValid x = true) :
    (e = some (.made x) ∧ h'.refCountAt x.index = 1) ∨
    (h.isValid x = true ∧ e = some (.retained x) ∧ h'.refCountAt x.index = h.refCountAt x.index + 1) ∨
    (h.isValid x = true ∧ e = some (.released x false) ∧ 0 < h.refCountAt x.index - 1 ∧
      h'.refCountAt x.index = h.refCountAt x.index - 1) ∨
    (h.isValid x = true ∧ (∀ ev ∈ e, ev.Aside x) ∧ h'.refCountAt x.index = h.refCountAt x.index) := by
  -- whatever happens to another object
  have helsewhere {y : Handle} {ev : Event} (hev : Change h (some ev) h') (hy : ev.handle? = some y)
      (hi : y.index ≠ x.index) : h.isValid x = true ∧ (∀ e ∈ some ev, e.Aside x) ∧
        h'.refCountAt x.index = h.refCountAt x.index := by
    have he := hev.entry_elsewhere hy fun e => hi (UInt32.toNat_inj.mp e)
    refine ⟨(isValid_congr he).symm.trans hx, fun e he => ?_, refCountAt_congr he⟩
    cases he
    exact Event.aside_of_handle? hy fun e => hi (by rw [e])
  have hc₀ := hc
  cases hc with
  | none => exact .inr (.inr (.inr ⟨hx, by simp, rfl⟩))
  | @made n k i rest hk hf =>
    by_cases hi : i = x.index
    · have hmade := handle_unique hx (hc₀.isValid_of_made hs) hi
      have hcount : (h.handOut n i).2.refCountAt x.index = 1 := by
        obtain ⟨e, he, -⟩ := isValid_iff.mp hx
        have hentry := hc₀.entry rfl x.index.toNat
        rw [if_pos (by rw [hi]), he] at hentry
        obtain ⟨e₀, -, rfl⟩ := Option.map_eq_some_iff.mp hentry.symm
        exact refCountAt_of_entry he
      exact .inl ⟨by rw [hmade], hcount⟩
    · exact .inr (.inr (.inr (helsewhere hc₀ rfl hi)))
  | @wrote y slot v hy hslot =>
    rw [isValid_setSlot] at hx
    by_cases hi : y.index = x.index
    · obtain ⟨e, he, -⟩ := isValid_iff.mp hx
      have hcount : (h.setSlot y.index slot v).refCountAt x.index = h.refCountAt x.index := by
        rw [hi, setSlot, refCountAt_updateEntry he, refCountAt_of_entry he]
      exact .inr (.inr (.inr ⟨hx, by simp [Event.Aside, Event.adds, Event.drops], hcount⟩))
    · exact .inr (.inr (.inr (helsewhere hc₀ rfl hi)))
  | @retained y hy =>
    rw [isValid_recount] at hx
    by_cases hi : y.index = x.index
    · rw [handle_unique hx hy hi]
      obtain ⟨e, he, -⟩ := isValid_iff.mp hx
      exact .inr (.inl ⟨hx, rfl, by rw [refCountAt_updateEntry he, refCountAt_of_entry he]⟩)
    · exact .inr (.inr (.inr (helsewhere hc₀ rfl hi)))
  | @dropped y hy hpos =>
    rw [isValid_recount] at hx
    by_cases hi : y.index = x.index
    · have hyx := handle_unique hx hy hi
      subst hyx
      obtain ⟨e, he, -⟩ := isValid_iff.mp hx
      exact .inr (.inr (.inl ⟨hx, rfl, hpos, refCountAt_updateEntry he _⟩))
    · exact .inr (.inr (.inr (helsewhere hc₀ rfl hi)))
  | @freed y hy hlast hfree =>
    by_cases hi : y.index = x.index
    · -- what has just been freed is not there
      obtain ⟨e, he, hl, -⟩ := isValid_iff.mp hx
      rw [entries_retire, if_pos (by rw [hi])] at he
      obtain ⟨e₀, -, rfl⟩ := Option.map_eq_some_iff.mp he
      cases hl
    · exact .inr (.inr (.inr (helsewhere hc₀ rfl hi)))
  | collected roots =>
    have he := hs.entry_of_valid_after roots hx
    refine .inr (.inr (.inr ⟨(isValid_congr he).symm.trans hx, fun e he => ?_, refCountAt_congr he⟩))
    cases he
    exact ⟨by simp, rfl, rfl⟩

/-- A release frees the object if it finds the count at one, and not otherwise. -/
theorem Change.gone_iff {x : Handle} {gone : Bool} (hc : Change h (some (.released x gone)) h') :
    gone = true ↔ h.refCountAt x.index = 1 := by
  cases hc with
  | dropped hx hpos =>
    have hne : h.refCountAt x.index ≠ 1 := fun e => by rw [e] at hpos; exact absurd hpos (by decide)
    simp [hne]
  | freed hx hlast hfree => grind

/-! ## The count is the number of references -/

/-- The count of every object that is there is the number of references to it, as far as a word can hold it. There is
always one reference at least. -/
def Counts (es : List Event) (h : Heap) : Prop :=
  ∀ x : Handle, h.isValid x = true →
    releases es x ≤ retains es x ∧ h.refCountAt x.index = UInt32.ofNat (references es x)

theorem references_of_le {es : List Event} {x : Handle} (hle : releases es x ≤ retains es x) :
    references es x = retains es x - releases es x + 1 := by
  unfold references
  omega

theorem references_pos {es : List Event} {x : Handle} (hle : releases es x ≤ retains es x) : 0 < references es x := by
  rw [references_of_le hle]
  exact Nat.succ_pos _

theorem references_retained {es : List Event} {x : Handle} (hle : releases es x ≤ retains es x) :
    references (es ++ [.retained x]) x = references es x + 1 := by
  unfold references
  rw [retains_retained, releases_retained]
  omega

theorem references_released (es : List Event) (x : Handle) (gone : Bool) :
    references (es ++ [.released x gone]) x = references es x - 1 := by
  unfold references
  rw [retains_released, releases_released]
  omega

theorem references_aside (es : List Event) {x : Handle} {e : Event} (he : e.Aside x) :
    retains (es ++ [e]) x = retains es x ∧ releases (es ++ [e]) x = releases es x := by
  obtain ⟨hmade, hadds, hdrops⟩ := he
  rw [retains_other es x hmade, releases_other es x hmade, hadds, hdrops]
  exact ⟨rfl, rfl⟩

theorem Counts.change {es : List Event} {e : Option Event} (hn : Counts es h) (hs : Sound c h) (hc : Change h e h') :
    Counts (es ++ e.toList) h' := by
  intro x hx
  rcases hc.count hs hx with ⟨rfl, hcount⟩ | ⟨hx₀, rfl, hcount⟩ | ⟨hx₀, rfl, hpos, hcount⟩ | ⟨hx₀, haside, hcount⟩
  · rw [Option.toList_some, references, retains_made, releases_made, hcount]
    exact ⟨Nat.le_refl 0, rfl⟩
  · obtain ⟨hle, hold⟩ := hn x hx₀
    rw [Option.toList_some, references_retained hle, retains_retained, releases_retained, hcount, hold, UInt32.ofNat_add]
    exact ⟨Nat.le_succ_of_le hle, rfl⟩
  · obtain ⟨hle, hold⟩ := hn x hx₀
    rw [hold, references_of_le hle, UInt32.ofNat_add] at hpos hcount
    have hcancel := UInt32.add_sub_cancel (UInt32.ofNat (retains es x - releases es x)) 1
    rw [show UInt32.ofNat 1 = 1 from rfl, hcancel] at hpos hcount
    -- a count that does not come to zero is not that of the last reference
    have hlt : releases es x < retains es x := by
      refine Nat.lt_of_le_of_ne hle fun he => ?_
      rw [he, Nat.sub_self] at hpos
      exact absurd hpos (by decide)
    rw [Option.toList_some, references_released, references_of_le hle, retains_released, releases_released]
    exact ⟨hlt, hcount⟩
  · obtain ⟨hle, hold⟩ := hn x hx₀
    cases e with
    | none => rw [Option.toList_none, List.append_nil, hcount]; exact ⟨hle, hold⟩
    | some ev =>
      obtain ⟨hretains, hreleases⟩ := references_aside es (haside ev rfl)
      rw [Option.toList_some, references, hretains, hreleases, hcount]
      exact ⟨hle, hold⟩

end Heap

end StackVM
