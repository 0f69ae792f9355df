import Mathlib

/-! Address spaces that share frames until one of them writes: each entry names a
frame and says whether it may be written through. -/

namespace Onix

open Function

/-- Spaces `P` of pages `V` over frames `F` with contents `D`. -/
structure Cow (P V F D : Type*) where
  map : P → V → Option (F × Bool)
  data : F → D

namespace Cow

variable {P V F D : Type*} {c : Cow P V F D} {n : F → ℕ} {p q : P} {v w : V} {f g : F} {b : Bool} {x : P × V}

/-- The entries that name the frame. -/
def uses (c : Cow P V F D) (f : F) : Set (P × V) := {x | ∃ b, c.map x.1 x.2 = some (f, b)}

/-- What a space shows at a page. -/
def view (c : Cow P V F D) (p : P) (v : V) : Option D := (c.map p v).map fun e => c.data e.1

/-- `n` counts the entries of each frame in use, a frame stands for the same page
in all spaces, and a writable entry is its frame's only one. -/
structure Inv (c : Cow P V F D) (n : F → ℕ) : Prop where
  finite : ∀ f, (c.uses f).Finite
  count : ∀ f, (c.uses f).Nonempty → n f = (c.uses f).ncard
  aligned : ∀ f, ∀ x ∈ c.uses f, ∀ y ∈ c.uses f, x.2 = y.2
  sole : ∀ p v f, c.map p v = some (f, true) → ∀ x ∈ c.uses f, x = (p, v)

theorem mem_uses (h : c.map p v = some (f, b)) : (p, v) ∈ c.uses f := ⟨b, h⟩

theorem uses_unique (hx : x ∈ c.uses f) (hy : x ∈ c.uses g) : f = g := by
  obtain ⟨b, hb⟩ := hx
  obtain ⟨b', hb'⟩ := hy
  rw [hb] at hb'
  exact (Prod.mk.inj (Option.some.inj hb')).1

namespace Inv

theorem congr {c' : Cow P V F D} {n' : F → ℕ} (h : c.Inv n) (hm : c'.map = c.map)
    (hn : ∀ f, (c.uses f).Nonempty → n' f = n f) : c'.Inv n' := by
  have hu : ∀ f, c'.uses f = c.uses f := fun f => by
    unfold uses
    rw [hm]
  refine ⟨fun f => ?_, fun f hf => ?_, fun f => ?_, fun p v f => ?_⟩
  · rw [hu]
    exact h.finite f
  · rw [hu] at hf ⊢
    rw [hn f hf, h.count f hf]
  · rw [hu]
    exact h.aligned f
  · rw [hu, hm]
    exact h.sole p v f

theorem pos (h : c.Inv n) (hx : x ∈ c.uses f) : 0 < n f := by
  rw [h.count f ⟨x, hx⟩]
  exact (Set.ncard_pos (h.finite f)).mpr ⟨x, hx⟩

/-- A frame named by a writable entry has count 1. -/
theorem one_of_write (h : c.Inv n) (hm : c.map p v = some (f, true)) : n f = 1 := by
  have hx : (p, v) ∈ c.uses f := ⟨true, hm⟩
  have : c.uses f = {(p, v)} :=
    Set.Subset.antisymm (fun y hy => h.sole p v f hm y hy) (Set.singleton_subset_iff.mpr hx)
  rw [h.count f ⟨_, hx⟩, this, Set.ncard_singleton]

/-- A frame with count 1 has no second entry. -/
theorem eq_of_one (h : c.Inv n) (hn : n f = 1) (hx : x ∈ c.uses f) {y : P × V}
    (hy : y ∈ c.uses f) : x = y := by
  rw [h.count f ⟨x, hx⟩] at hn
  obtain ⟨z, hz⟩ := Set.ncard_eq_one.mp hn
  rw [hz] at hx hy
  rw [Set.mem_singleton_iff.mp hx, Set.mem_singleton_iff.mp hy]

/-- Each space names a frame at most once. -/
theorem count_le (h : c.Inv n) (ps : Finset P) (hp : ∀ x ∈ c.uses f, x.1 ∈ ps)
    (hf : (c.uses f).Nonempty) : n f ≤ ps.card := by
  rw [h.count f hf, ← Set.ncard_coe_finset ps]
  refine Set.ncard_le_ncard_of_injOn Prod.fst hp (fun x hx y hy he => ?_) ps.finite_toSet
  exact Prod.ext he (h.aligned f x hx y hy)

end Inv

section Set

variable [DecidableEq P] [DecidableEq V]

/-- The entry of a page replaced. -/
def set (c : Cow P V F D) (p : P) (v : V) (e : Option (F × Bool)) : Cow P V F D :=
  { c with map := update c.map p (update (c.map p) v e) }

theorem map_set (e : Option (F × Bool)) (q : P) (w : V) :
    (c.set p v e).map q w = if q = p ∧ w = v then e else c.map q w := by
  unfold set
  by_cases hq : q = p
  · subst hq
    by_cases hw : w = v
    · subst hw
      simp
    · simp [hw]
  · simp [hq]

theorem set_set (e e' : Option (F × Bool)) : (c.set p v e).set p v e' = c.set p v e' := by
  unfold set
  dsimp only
  rw [update_self, update_idem, update_idem]

theorem mem_uses_set (e : Option (F × Bool)) :
    x ∈ (c.set p v e).uses f ↔ if x = (p, v) then ∃ b, e = some (f, b) else x ∈ c.uses f := by
  have : x = (p, v) ↔ x.1 = p ∧ x.2 = v := Prod.ext_iff
  unfold uses
  rw [Set.mem_ofPred_eq, map_set]
  simp only [this]
  split_ifs <;> rfl

/-- A page that had no entry gets a frame that was not in use. -/
theorem Inv.link [DecidableEq F] (h : c.Inv n) (hv : c.map p v = none) (hf : c.uses f = ∅) :
    (c.set p v (some (f, true))).Inv (update n f 1) := by
  have hu : ∀ g, (c.set p v (some (f, true))).uses g = if g = f then {(p, v)} else c.uses g := by
    intro g
    ext x
    rw [mem_uses_set]
    by_cases hg : g = f
    · subst hg
      rw [if_pos rfl, hf]
      by_cases hx : x = (p, v) <;> simp [hx]
    · rw [if_neg hg]
      by_cases hx : x = (p, v)
      · subst hx
        have : (p, v) ∉ c.uses g := fun ⟨b, hb⟩ => by simp [hv] at hb
        simp [Ne.symm hg, this]
      · rw [if_neg hx]
  have hother : ∀ g x, x ∈ (c.set p v (some (f, true))).uses g → g ≠ f → x ∈ c.uses g := by
    intro g x hx hg
    rwa [hu, if_neg hg] at hx
  refine ⟨fun g => ?_, fun g hg => ?_, fun g x hx y hy => ?_, fun q w g hm x hx => ?_⟩
  · rw [hu]
    split_ifs
    · exact Set.finite_singleton _
    · exact h.finite g
  · rw [hu] at hg ⊢
    by_cases hgf : g = f
    · subst hgf
      simp
    · rw [if_neg hgf] at hg ⊢
      rw [update_of_ne hgf, h.count g hg]
  · by_cases hgf : g = f
    · rw [hu, if_pos hgf] at hx hy
      rw [Set.mem_singleton_iff.mp hx, Set.mem_singleton_iff.mp hy]
    · exact h.aligned g x (hother g x hx hgf) y (hother g y hy hgf)
  · by_cases hgf : g = f
    · subst hgf
      have hq := mem_uses hm
      rw [hu, if_pos rfl] at hx hq
      rw [Set.mem_singleton_iff.mp hx, Set.mem_singleton_iff.mp hq]
    · rw [map_set] at hm
      split_ifs at hm with hqw
      · exact absurd (Prod.mk.inj (Option.some.inj hm)).1.symm hgf
      · exact h.sole q w g hm x (hother g x hx hgf)

/-- An entry is removed and its frame counted down. -/
theorem Inv.unlink [DecidableEq F] (h : c.Inv n) (hv : c.map p v = some (f, b)) :
    (c.set p v none).Inv (update n f (n f - 1)) := by
  have hu : ∀ g, (c.set p v none).uses g = c.uses g \ {(p, v)} := by
    intro g
    ext x
    rw [mem_uses_set]
    by_cases hx : x = (p, v) <;> simp [hx]
  have hsub : ∀ g x, x ∈ (c.set p v none).uses g → x ∈ c.uses g := by
    intro g x hx
    rw [hu] at hx
    exact hx.1
  refine ⟨fun g => (h.finite g).subset (hsub g), fun g hg => ?_,
    fun g x hx y hy => h.aligned g x (hsub g x hx) y (hsub g y hy), fun q w g hm x hx => ?_⟩
  · obtain ⟨y, hy⟩ := hg
    have hne := h.count g ⟨y, hsub g y hy⟩
    rw [hu]
    by_cases hgf : g = f
    · subst hgf
      rw [update_self, Set.ncard_sdiff_singleton_of_mem (mem_uses hv), hne]
    · have hnot : (p, v) ∉ c.uses g := fun hx => hgf (uses_unique hx (mem_uses hv))
      rw [update_of_ne hgf, hne, Set.sdiff_singleton_eq_self hnot]
  · rw [map_set] at hm
    split_ifs at hm with hqw
    exact h.sole q w g hm x (hsub g x hx)

/-- The only entry of a frame becomes writable. -/
theorem Inv.grant (h : c.Inv n) (hv : c.map p v = some (f, b)) (hn : n f = 1) :
    (c.set p v (some (f, true))).Inv n := by
  have hu : ∀ g, (c.set p v (some (f, true))).uses g = c.uses g := by
    intro g
    ext x
    rw [mem_uses_set]
    by_cases hx : x = (p, v)
    · subst hx
      rw [if_pos rfl]
      constructor
      · rintro ⟨b', hb'⟩
        rw [← (Prod.mk.inj (Option.some.inj hb')).1]
        exact mem_uses hv
      · intro hx
        rw [uses_unique hx (mem_uses hv)]
        exact ⟨true, rfl⟩
    · rw [if_neg hx]
  refine ⟨fun g => ?_, fun g => ?_, fun g => ?_, fun q w g hm x => ?_⟩
  · rw [hu]
    exact h.finite g
  · rw [hu]
    exact h.count g
  · rw [hu]
    exact h.aligned g
  · rw [hu]
    intro hx
    rw [map_set] at hm
    split_ifs at hm with hqw
    · obtain rfl := (Prod.mk.inj (Option.some.inj hm)).1
      obtain ⟨rfl, rfl⟩ := hqw
      exact h.eq_of_one hn hx (mem_uses hv)
    · exact h.sole q w g hm x hx

end Set

section Share

open Classical

/-- The pages `S` of `p` are shown by `q` too; nobody may write them any more. -/
noncomputable def share (c : Cow P V F D) (p q : P) (S : Set V) : Cow P V F D :=
  { c with map := fun r v =>
      if (r = p ∨ r = q) ∧ v ∈ S then (c.map p v).map fun e => (e.1, false) else c.map r v }

theorem map_share_of_mem {r : P} {S : Set V} (hr : r = p ∨ r = q) (hv : v ∈ S) :
    (c.share p q S).map r v = (c.map p v).map fun e => (e.1, false) := if_pos ⟨hr, hv⟩

theorem map_share_of_not {r : P} {S : Set V} (h : ¬ ((r = p ∨ r = q) ∧ v ∈ S)) :
    (c.share p q S).map r v = c.map r v := if_neg h

/-- Sharing shows `q` what `p` shows and changes nothing else. -/
theorem view_share {r : P} {S : Set V} :
    (c.share p q S).view r v = if r = q ∧ v ∈ S then c.view p v else c.view r v := by
  unfold view
  by_cases hr : (r = p ∨ r = q) ∧ v ∈ S
  · rw [map_share_of_mem hr.1 hr.2, Option.map_map]
    by_cases hq : r = q
    · rw [if_pos ⟨hq, hr.2⟩]
      rfl
    · obtain rfl : r = p := hr.1.resolve_right hq
      rw [if_neg fun h => hq h.1]
      rfl
  · rw [map_share_of_not hr, if_neg fun h => hr ⟨Or.inr h.1, h.2⟩]
    rfl

theorem mem_uses_share {S : Set V} (hpq : p ≠ q) (hq : ∀ v ∈ S, c.map q v = none) :
    x ∈ (c.share p q S).uses f ↔
      x ∈ c.uses f ∨ (x.1 = q ∧ x.2 ∈ S ∧ (p, x.2) ∈ c.uses f) := by
  obtain ⟨r, v⟩ := x
  unfold uses
  simp only [Set.mem_ofPred_eq]
  by_cases hr : (r = p ∨ r = q) ∧ v ∈ S
  · rw [map_share_of_mem hr.1 hr.2]
    have hmap : (∃ b, ((c.map p v).map fun e => (e.1, false)) = some (f, b)) ↔
        ∃ b, c.map p v = some (f, b) := by
      cases c.map p v with
      | none => simp
      | some e =>
        obtain ⟨g, b⟩ := e
        simp
    rw [hmap]
    rcases hr.1 with rfl | rfl
    · simp [hpq]
    · simp [hq v hr.2, hr.2]
  · rw [map_share_of_not hr]
    constructor
    · exact Or.inl
    · rintro (h | ⟨rfl, hv, -⟩)
      · exact h
      · exact absurd ⟨Or.inr rfl, hv⟩ hr

/-- Sharing some pages, then others, is sharing all of them. -/
theorem map_share_share {S T : Set V} :
    ((c.share p q S).share p q T).map = (c.share p q (S ∪ T)).map := by
  funext r v
  by_cases hr : r = p ∨ r = q
  · by_cases hT : v ∈ T
    · rw [map_share_of_mem hr hT, map_share_of_mem hr (Set.mem_union_right S hT)]
      by_cases hS : v ∈ S
      · rw [map_share_of_mem (Or.inl rfl) hS, Option.map_map]
        rfl
      · rw [map_share_of_not fun h => hS h.2]
    · rw [map_share_of_not fun h => hT h.2]
      by_cases hS : v ∈ S
      · rw [map_share_of_mem hr hS, map_share_of_mem hr (Set.mem_union_left T hS)]
      · rw [map_share_of_not fun h => hS h.2,
          map_share_of_not fun h => h.2.elim hS hT]
  · rw [map_share_of_not fun h => hr h.1, map_share_of_not fun h => hr h.1,
      map_share_of_not fun h => hr h.1]

theorem map_share_congr {c' : Cow P V F D} {S : Set V} (h : c'.map = c.map) :
    (c'.share p q S).map = (c.share p q S).map := by
  unfold share
  rw [h]

/-- `q`, which showed none of these pages, counts once more for each frame of `p`. -/
theorem Inv.share (h : c.Inv n) {S : Set V} (hpq : p ≠ q) (hq : ∀ v ∈ S, c.map q v = none)
    {n' : F → ℕ} (hin : ∀ f, (∃ v ∈ S, (p, v) ∈ c.uses f) → n' f = n f + 1)
    (hout : ∀ f, (c.uses f).Nonempty → (¬ ∃ v ∈ S, (p, v) ∈ c.uses f) → n' f = n f) :
    (c.share p q S).Inv n' := by
  have hmem : ∀ f x, x ∈ (c.share p q S).uses f ↔
      x ∈ c.uses f ∨ (x.1 = q ∧ x.2 ∈ S ∧ (p, x.2) ∈ c.uses f) :=
    fun f x => mem_uses_share hpq hq
  have hback : ∀ f, ((c.share p q S).uses f).Nonempty → (c.uses f).Nonempty := by
    rintro f ⟨x, hx⟩
    rcases (hmem f x).mp hx with hx | ⟨-, -, hx⟩
    · exact ⟨x, hx⟩
    · exact ⟨_, hx⟩
  have hcases : ∀ f, (∃ v ∈ S, (p, v) ∈ c.uses f ∧ (q, v) ∉ c.uses f ∧
      (c.share p q S).uses f = insert (q, v) (c.uses f)) ∨
      ((¬ ∃ v ∈ S, (p, v) ∈ c.uses f) ∧ (c.share p q S).uses f = c.uses f) := by
    intro f
    by_cases hv : ∃ v ∈ S, (p, v) ∈ c.uses f
    · obtain ⟨v, hv, hx⟩ := hv
      refine Or.inl ⟨v, hv, hx, fun ⟨b, hb⟩ => by simp [hq v hv] at hb, ?_⟩
      ext ⟨r, w⟩
      rw [hmem, Set.mem_insert_iff]
      constructor
      · rintro (h' | ⟨rfl, -, hw⟩)
        · exact Or.inr h'
        · exact Or.inl (congrArg (Prod.mk r) (h.aligned f _ hw _ hx))
      · rintro (he | h')
        · obtain ⟨rfl, rfl⟩ := Prod.mk.inj he
          exact Or.inr ⟨rfl, hv, hx⟩
        · exact Or.inl h'
    · refine Or.inr ⟨hv, ?_⟩
      ext x
      rw [hmem]
      exact ⟨fun h' => h'.resolve_right fun ⟨_, hS, hx⟩ => hv ⟨_, hS, hx⟩, Or.inl⟩
  refine ⟨fun f => ?_, fun f hf => ?_, fun f x hx y hy => ?_, fun r v f hm x hx => ?_⟩
  · rcases hcases f with ⟨v, -, -, -, he⟩ | ⟨-, he⟩ <;> rw [he]
    · exact (h.finite f).insert _
    · exact h.finite f
  · have hne := hback f hf
    rcases hcases f with ⟨v, hv, hx, hnot, he⟩ | ⟨hno, he⟩ <;> rw [he]
    · rw [hin f ⟨v, hv, hx⟩, Set.ncard_insert_of_notMem hnot (h.finite f), h.count f hne]
    · rw [hout f hne hno, h.count f hne]
  · have hpage : ∀ x, x ∈ (c.share p q S).uses f → ∃ r, (r, x.2) ∈ c.uses f := by
      intro x hx
      rcases (hmem f x).mp hx with hx | ⟨-, -, hx⟩
      · exact ⟨x.1, hx⟩
      · exact ⟨p, hx⟩
    obtain ⟨r, hr⟩ := hpage x hx
    obtain ⟨r', hr'⟩ := hpage y hy
    exact h.aligned f (r, x.2) hr (r', y.2) hr'
  · by_cases hr : (r = p ∨ r = q) ∧ v ∈ S
    · rw [map_share_of_mem hr.1 hr.2] at hm
      simp at hm
    · rw [map_share_of_not hr] at hm
      rcases (hmem f x).mp hx with hx | ⟨-, hS, hx⟩
      · exact h.sole r v f hm x hx
      · obtain ⟨rfl, rfl⟩ := Prod.mk.inj (h.sole r v f hm _ hx)
        exact absurd ⟨Or.inl rfl, hS⟩ hr

end Share

/-- A write through a writable entry is seen at that page of that space only. -/
theorem Inv.view_store [DecidableEq F] (h : c.Inv n) (hm : c.map p v = some (f, true)) (d : D)
    (hne : (q, w) ≠ (p, v)) :
    view { c with data := update c.data f d } q w = c.view q w := by
  unfold view
  dsimp only
  cases hq : c.map q w with
  | none => rfl
  | some e =>
    obtain ⟨g, b⟩ := e
    have : g ≠ f := by
      rintro rfl
      exact hne (h.sole p v g hm (q, w) (mem_uses hq))
    rw [Option.map_some, Option.map_some, update_of_ne this]

end Cow

end Onix
