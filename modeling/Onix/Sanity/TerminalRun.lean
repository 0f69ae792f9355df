import Onix.Spec.Terminal

/-! The terminal does not look into its cells: what is in them follows the cells'
origin, whatever they are filled with. -/

namespace Onix.Console

open Function

namespace Look

variable {α β : Type}

/-- The cells under another reading. -/
def map (f : α → β) (l : Look α) : Look β :=
  ⟨f l.erased, fun ch => f (l.char ch), fun col => f (l.fresh col)⟩

end Look

namespace Term

variable {α β : Type} {l : Look α} {t : Term α} {f : α → β} {ch : Byte} {bytes : List Byte}

theorem run_snoc (l : Look α) (bytes : List Byte) (ch : Byte) :
    run l (bytes ++ [ch]) = step l (run l bytes) ch := by
  unfold run
  rw [List.foldl_append]
  rfl

section Map

def map (f : α → β) (t : Term α) : Term β := ⟨fun k => f (t.cell k), t.x, t.y, t.scrolls⟩

theorem update_map (c : ℕ → α) (k : ℕ) (v : α) :
    (fun j => f (update c k v j)) = update (fun j => f (c j)) k (f v) := by
  funext j
  by_cases hj : j = k
  · subst hj
    rw [update_self, update_self]
  · rw [update_of_ne hj, update_of_ne hj]

theorem scroll_map : (t.map f).scroll (l.map f) = (t.scroll l).map f := by
  unfold scroll map Look.map
  dsimp only
  congr 1
  funext k
  split <;> rfl

theorem lf_map : (t.map f).lf (l.map f) = (t.lf l).map f := by
  unfold lf
  rw [scroll_map]
  split
  · rw [if_pos (by assumption)]
    rfl
  · rw [if_neg (by assumption)]

theorem bs_map : (t.map f).bs (l.map f) = (t.bs l).map f := by
  unfold bs
  by_cases hx : t.x = 0
  · rw [if_pos hx, if_pos (by exact hx)]
  · rw [if_neg hx, if_neg (by exact hx)]
    unfold map
    rw [update_map]
    rfl

theorem del_map : (t.map f).del (l.map f) = (t.del l).map f := by
  unfold del map
  rw [update_map]
  rfl

theorem wrap_map : (t.map f).wrap (l.map f) = (t.wrap l).map f := by
  unfold wrap
  by_cases hx : WIDTH ≤ t.x
  · rw [if_pos hx, if_pos (by exact hx), ← lf_map]
    rfl
  · rw [if_neg hx, if_neg (by exact hx)]

theorem put_map : (t.map f).put (l.map f) ch = (t.put l ch).map f := by
  unfold put map
  rw [update_map]
  rfl

theorem step_map : (t.map f).step (l.map f) ch = (t.step l ch).map f := by
  unfold step
  cases key ch with
  | nul => rfl
  | bel => rfl
  | bs => exact bs_map
  | ht => rfl
  | lf =>
    dsimp only
    rw [lf_map]
    rfl
  | vt => rfl
  | ff => exact lf_map
  | cr => rfl
  | del => exact del_map
  | char =>
    dsimp only
    rw [wrap_map, put_map]

/-- A run under another reading of its cells is the same run, read so. -/
theorem run_map (f : α → β) (l : Look α) (bytes : List Byte) :
    run (l.map f) bytes = (run l bytes).map f := by
  induction bytes using List.reverseRecOn with
  | nil => rfl
  | append_singleton bytes ch ih => rw [run_snoc, run_snoc, ih, step_map]

end Map

section Cells

variable {P : α → Prop}

/-- Every cell satisfies `P`. -/
def Every (P : α → Prop) (t : Term α) : Prop := ∀ k, P (t.cell k)

theorem Every.update (h : t.Every P) {v : α} (hv : P v) (k : ℕ) : ∀ j, P (update t.cell k v j) := by
  intro j
  by_cases hj : j = k
  · subst hj
    rwa [update_self]
  · rw [update_of_ne hj]
    exact h j

theorem Every.lf (h : t.Every P) (hfresh : t.y + 1 < HEIGHT ∨ ∀ col, P (l.fresh col)) :
    (t.lf l).Every P := by
  unfold Term.lf
  split
  · exact h
  · intro k
    unfold scroll
    dsimp only
    split
    · exact h _
    · exact hfresh.resolve_left (by assumption) _

theorem lf_scrolls : (t.lf l).scrolls = t.scrolls ∧ t.y + 1 < HEIGHT ∨
    (t.lf l).scrolls = t.scrolls + 1 := by
  unfold lf
  split
  · exact Or.inl ⟨rfl, by assumption⟩
  · exact Or.inr rfl

theorem step_scrolls_le (l : Look α) (t : Term α) (ch : Byte) :
    t.scrolls ≤ (t.step l ch).scrolls := by
  have hlf : ∀ t : Term α, t.scrolls ≤ (t.lf l).scrolls := by
    intro t
    rcases lf_scrolls (l := l) (t := t) with ⟨he, -⟩ | he <;> omega
  unfold step
  cases key ch with
  | nul => exact Nat.le_refl _
  | bel => exact Nat.le_refl _
  | bs =>
    dsimp only [bs]
    split <;> exact Nat.le_refl _
  | ht => exact Nat.le_refl _
  | lf => exact hlf t
  | vt => exact Nat.le_refl _
  | ff => exact hlf t
  | cr => exact Nat.le_refl _
  | del => exact Nat.le_refl _
  | char =>
    dsimp only [put, wrap]
    split
    · exact hlf { t with x := 0 }
    · exact Nat.le_refl _

/-- A step keeps a property of all cells when it holds of what the step fills in. -/
theorem Every.step (h : t.Every P) (herased : P l.erased) (hchar : ∀ ch, P (l.char ch))
    (hfresh : (t.step l ch).scrolls = t.scrolls ∨ ∀ col, P (l.fresh col)) :
    (t.step l ch).Every P := by
  have hlf : ∀ t : Term α, t.Every P →
      ((t.lf l).scrolls = t.scrolls ∨ ∀ col, P (l.fresh col)) → (t.lf l).Every P := by
    intro t ht hf
    apply ht.lf
    rcases hf with he | hf
    · rcases lf_scrolls (l := l) (t := t) with ⟨-, hy⟩ | he'
      · exact Or.inl hy
      · omega
    · exact Or.inr hf
  revert hfresh
  unfold Term.step
  cases key ch with
  | nul => exact fun _ => h
  | bel => exact fun _ => h
  | bs =>
    intro _
    dsimp only [bs]
    split
    · exact h
    · exact h.update herased _
  | ht => exact fun _ => h
  | lf => exact fun hfresh => hlf t h hfresh
  | vt => exact fun _ => h
  | ff => exact fun hfresh => hlf t h hfresh
  | cr => exact fun _ => h
  | del => exact fun _ => h.update herased _
  | char =>
    intro hfresh
    have hw : (t.wrap l).Every P := by
      revert hfresh
      dsimp only [put, wrap]
      split
      · intro hfresh
        apply hlf { t with x := 0 } h
        exact hfresh
      · exact fun _ => h
    exact hw.update (hchar ch) _

theorem run_every (herased : P l.erased) (hchar : ∀ ch, P (l.char ch))
    (hfresh : ∀ col, P (l.fresh col)) (bytes : List Byte) : (run l bytes).Every P := by
  induction bytes using List.reverseRecOn with
  | nil => exact fun _ => herased
  | append_singleton bytes ch ih =>
    rw [run_snoc]
    exact ih.step herased hchar (Or.inr hfresh)

/-- Where nothing scrolled, no cell is fresh. -/
theorem run_every_unscrolled (herased : P l.erased) (hchar : ∀ ch, P (l.char ch))
    (h : (run l bytes).scrolls = 0) : (run l bytes).Every P := by
  induction bytes using List.reverseRecOn with
  | nil => exact fun _ => herased
  | append_singleton bytes ch ih =>
    have hle := step_scrolls_le l (run l bytes) ch
    rw [run_snoc] at h ⊢
    exact (ih (by omega)).step herased hchar (Or.inl (by omega))

end Cells

end Term

end Onix.Console
