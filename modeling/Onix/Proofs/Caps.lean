import Onix.Spec.Keymap

/-! Shift and caps lock. The flags of the keys follow the scan codes, but the range
that is to keep caps lock to the letters holds of every character. -/

namespace Onix.Keyboard

open Function

variable {s : Keys} {codes : List Byte} {c make : Byte} {key row : ℕ} {ext : Bool}

section Codes

theorem makecode_eq (c : Byte) (ext : Bool) :
    ((c.setWidth 16 ||| (if ext then 0xe000 else 0)) &&& 0x7f : BitVec 16).toNat =
      c.toNat % 0x80 := by
  have hall : ∀ (ext : Bool) (i : Fin 256),
      (((BitVec.ofFin i : Byte).setWidth 16 ||| (if ext then 0xe000 else 0)) &&& 0x7f :
        BitVec 16).toNat = i.val % 0x80 := by decide +kernel
  exact hall ext c.toFin

theorem breakcode_iff (c : Byte) (ext : Bool) :
    (c.setWidth 16 ||| (if ext then 0xe000 else 0)) &&& (0x0080 : BitVec 16) ≠ 0 ↔
      0x80 ≤ c.toNat := by
  have hall : ∀ (ext : Bool) (i : Fin 256),
      ((BitVec.ofFin i : Byte).setWidth 16 ||| (if ext then 0xe000 else 0)) &&& (0x0080 : BitVec 16) ≠ 0 ↔
        0x80 ≤ i.val := by decide +kernel
  exact hall ext c.toFin

/-- The index of the flag column of an interrupt. -/
def flagColumn (ext : Bool) : ℕ := if ext then 3 else 2

/-- The handler on any byte but the prefix of the extended codes. -/
theorem scan_eq (s : Keys) (hc : c ≠ 0xe0) :
    scan s c =
      if KEY_PRINT_SCREEN < c.toNat % 0x80 then ({ s with extcode := false }, none)
      else if 0x80 ≤ c.toNat then
        (setKey { s with extcode := false } (c.toNat % 0x80) (flagColumn s.extcode) false, none)
      else
        let s' := toggle (setKey { s with extcode := false } (c.toNat % 0x80)
          (flagColumn s.extcode) true) (c.toNat % 0x80)
        (s', visible (character s' (c.toNat % 0x80) (flagColumn s.extcode))) := by
  have hmod : c.toNat % 0x80 ≠ CODE_PRINT_SCREEN_DOWN := by
    unfold CODE_PRINT_SCREEN_DOWN
    omega
  unfold scan
  rw [if_neg hc]
  dsimp only
  rw [makecode_eq, if_neg hmod]
  simp only [breakcode_iff]
  rfl

theorem toggle_keymap (s : Keys) (key : ℕ) : (toggle s key).keymap = s.keymap := by
  unfold toggle
  split_ifs <;> rfl

theorem toggle_capslock (s : Keys) (key : ℕ) :
    (toggle s key).capslock = if key = KEY_CAPSLOCK then !s.capslock else s.capslock := by
  unfold toggle
  split_ifs with hnum hcaps hscr
  · exact absurd (hnum.symm.trans hcaps) (by decide)
  · rfl
  · rfl
  · rfl
  · rfl

end Codes

section History

/-- Whether the byte before was the prefix of the extended codes. -/
theorem plainCodes_snoc (ext : Bool) (codes : List Byte) (c : Byte) :
    plainCodes ext (codes ++ [c]) = plainCodes ext codes ++
      if c = 0xe0 ∨ codes.foldl (fun _ d => decide (d = 0xe0)) ext then [] else [c] := by
  induction codes generalizing ext with
  | nil =>
    unfold plainCodes
    by_cases hc : c = 0xe0
    · simp [hc, plainCodes]
    · cases ext <;> simp [plainCodes]
  | cons d codes ih =>
    rw [List.cons_append, plainCodes, plainCodes, List.foldl_cons]
    by_cases hd : d = 0xe0
    · rw [if_pos hd, if_pos hd, ih]
      simp [hd]
    · rw [if_neg hd, if_neg hd, decide_eq_false hd]
      cases ext <;> simp [ih]

theorem pending_snoc : Pending (codes ++ [c]) ↔ c = 0xe0 := by
  unfold Pending
  rw [List.getLast?_concat, Option.some_inj]

theorem foldl_pending (codes : List Byte) :
    codes.foldl (fun _ d => decide (d = 0xe0)) false = decide (Pending codes) := by
  induction codes using List.reverseRecOn with
  | nil => rfl
  | append_singleton codes c =>
    rw [List.foldl_append]
    exact decide_eq_decide.mpr pending_snoc.symm

/-- A byte changes whether a key is held when it is a scan code of that key. -/
theorem held_snoc (hkey : key < 0x80) : Held key (codes ++ [c]) ↔
    if c = 0xe0 ∨ Pending codes ∨ c.toNat % 0x80 ≠ key then Held key codes else c.toNat < 0x80 := by
  unfold Held
  rw [plainCodes_snoc, foldl_pending]
  by_cases hskip : c = 0xe0 ∨ Pending codes
  · rw [if_pos (by simpa using hskip), List.append_nil, if_pos (by tauto)]
  · rw [if_neg (by simpa using hskip), List.filter_append]
    by_cases hk : c.toNat % 0x80 = key
    · rw [if_neg (by tauto), List.filter_singleton, decide_eq_true hk, cond_true,
        List.getLast?_concat, Option.some_inj]
      constructor
      · intro he
        rw [he, BitVec.toNat_ofNat]
        omega
      · intro hlt
        apply BitVec.eq_of_toNat_eq
        rw [BitVec.toNat_ofNat]
        omega
    · rw [if_pos (by tauto), List.filter_singleton, decide_eq_false hk, cond_false,
        List.append_nil]

theorem capsOn_snoc : CapsOn (codes ++ [c]) ↔ if c = 0x3A then ¬ CapsOn codes else CapsOn codes := by
  unfold CapsOn
  rw [List.count_append, List.count_singleton]
  by_cases hc : c = 0x3A
  · rw [if_pos hc, if_pos (by simpa using hc)]
    omega
  · rw [if_neg hc, if_neg (by simpa using hc), Nat.add_zero]

end History

/-- What the handler keeps is what the scan codes say. -/
structure Tracks (s : Keys) (codes : List Byte) : Prop where
  chars : ∀ row col, col < 2 → s.keymap row col = keymapInit row col
  down : ∀ row ≤ KEY_PRINT_SCREEN, s.keymap row 2 ≠ 0 ↔ Held row codes
  capslock : s.capslock = true ↔ CapsOn codes
  extcode : s.extcode = true ↔ Pending codes

section Invariant

theorem tracks_init : Tracks keyboardInit [] where
  chars _ _ _ := rfl
  down row _ := by simp [keyboardInit, keymapInit, Held, plainCodes]
  capslock := by simp [keyboardInit, CapsOn]
  extcode := by simp [keyboardInit, Pending]

theorem setKey_chars (s : Keys) (key : ℕ) (ext down : Bool) (row col : ℕ) (hcol : col < 2) :
    (setKey s key (flagColumn ext) down).keymap row col = s.keymap row col := by
  have hne : col ≠ flagColumn ext := by
    unfold flagColumn
    split <;> omega
  unfold setKey
  dsimp only
  by_cases hrow : row = key
  · rw [hrow, update_self, update_of_ne hne]
  · rw [update_of_ne hrow]

/-- The flag of the plain code changes with a plain code of the key only. -/
theorem setKey_down (s : Keys) (key : ℕ) (ext down : Bool) (row : ℕ) :
    (setKey s key (flagColumn ext) down).keymap row 2 ≠ 0 ↔
      if ext = true ∨ key ≠ row then s.keymap row 2 ≠ 0 else down = true := by
  unfold setKey
  dsimp only
  by_cases hrow : row = key
  · rw [hrow, update_self]
    cases ext with
    | true =>
      rw [update_of_ne (by decide)]
      simp
    | false =>
      rw [show flagColumn false = 2 from rfl, update_self]
      cases down <;> simp
  · rw [update_of_ne hrow, if_pos (Or.inr (Ne.symm hrow))]

theorem tracks_scan (c : Byte) (h : Tracks s codes) : Tracks (scan s c).1 (codes ++ [c]) := by
  by_cases hc : c = 0xe0
  · -- the prefix sets `extcode_state` and nothing else
    subst hc
    refine ⟨h.chars, fun row hrow => ?_, ?_, ?_⟩
    · rw [held_snoc (by unfold KEY_PRINT_SCREEN at hrow; omega), if_pos (Or.inl rfl)]
      exact h.down row hrow
    · rw [capsOn_snoc, if_neg (by decide)]
      exact h.capslock
    · rw [pending_snoc]
      exact ⟨fun _ => rfl, fun _ => rfl⟩
  · have hext : ¬ Pending (codes ++ [c]) := fun hp => hc (pending_snoc.mp hp)
    have hheld : ∀ row ≤ KEY_PRINT_SCREEN, Held row (codes ++ [c]) ↔
        if s.extcode = true ∨ c.toNat % 0x80 ≠ row then s.keymap row 2 ≠ 0 else c.toNat < 0x80 := by
      intro row hrow
      rw [held_snoc (by unfold KEY_PRINT_SCREEN at hrow; omega), h.down row hrow]
      by_cases hskip : s.extcode = true ∨ c.toNat % 0x80 ≠ row
      · rw [if_pos hskip, if_pos (Or.inr (hskip.imp_left h.extcode.mp))]
      · rw [if_neg hskip, if_neg]
        rintro (he | he)
        · exact hc he
        · exact hskip (he.imp_left h.extcode.mpr)
    rw [scan_eq s hc]
    split_ifs with hbig hbreak
    · refine ⟨h.chars, fun row hrow => ?_, ?_, ?_⟩
      · rw [hheld row hrow, if_pos (Or.inr (by omega))]
      · rw [capsOn_snoc, if_neg (by rintro rfl; revert hbig; decide)]
        exact h.capslock
      · exact ⟨fun he => absurd he Bool.false_ne_true, fun hp => absurd hp hext⟩
    · refine ⟨fun row col hcol => ?_, fun row hrow => ?_, ?_, ?_⟩
      · exact (setKey_chars _ _ _ _ row col hcol).trans (h.chars row col hcol)
      · rw [hheld row hrow, setKey_down]
        by_cases hskip : s.extcode = true ∨ c.toNat % 0x80 ≠ row
        · rw [if_pos hskip, if_pos hskip]
        · rw [if_neg hskip, if_neg hskip]
          exact ⟨fun he => absurd he Bool.false_ne_true, fun hlt => by omega⟩
      · rw [capsOn_snoc, if_neg (by rintro rfl; revert hbreak; decide)]
        exact h.capslock
      · exact ⟨fun he => absurd he Bool.false_ne_true, fun hp => absurd hp hext⟩
    · refine ⟨fun row col hcol => ?_, fun row hrow => ?_, ?_, ?_⟩
      · dsimp only
        rw [toggle_keymap, setKey_chars _ _ _ _ row col hcol]
        exact h.chars row col hcol
      · dsimp only
        rw [toggle_keymap, hheld row hrow, setKey_down]
        by_cases hskip : s.extcode = true ∨ c.toNat % 0x80 ≠ row
        · rw [if_pos hskip, if_pos hskip]
        · rw [if_neg hskip, if_neg hskip]
          exact ⟨fun _ => by omega, fun _ => rfl⟩
      · dsimp only
        rw [toggle_capslock, capsOn_snoc, ← h.capslock]
        have hcaps : c.toNat % 0x80 = KEY_CAPSLOCK ↔ c = 0x3A := by
          rw [show c.toNat % 0x80 = c.toNat by omega]
          exact ⟨fun he => BitVec.eq_of_toNat_eq he, fun he => by rw [he]; rfl⟩
        by_cases he : c = 0x3A
        · rw [if_pos (hcaps.mpr he), if_pos he]
          simp [setKey]
        · rw [if_neg (mt hcaps.mp he), if_neg he]
          rfl
      · have hfalse : (toggle (setKey { s with extcode := false } (c.toNat % 0x80)
            (flagColumn s.extcode) true) (c.toNat % 0x80)).extcode = false := by
          unfold toggle
          split_ifs <;> rfl
        exact ⟨fun he => absurd (hfalse.symm.trans he) Bool.false_ne_true, fun hp => absurd hp hext⟩

theorem tracks_scans (codes : List Byte) : Tracks (scans codes) codes := by
  induction codes using List.reverseRecOn with
  | nil => exact tracks_init
  | append_singleton codes c ih =>
    unfold scans
    rw [List.foldl_append]
    exact tracks_scan c ih

end Invariant

section Law

/-- `'a' <= c <= 'z'` holds of every character. -/
theorem between_true (c : Byte) : between c = true := by
  unfold between
  split_ifs <;> rfl

/-- A key with two different characters is neither shift nor caps lock. -/
theorem ordinary (hne : unshifted make ≠ shifted make) :
    make.toNat ≠ KEY_SHIFT_L ∧ make.toNat ≠ KEY_SHIFT_R ∧ make.toNat ≠ KEY_CAPSLOCK := by
  unfold unshifted shifted at hne
  refine ⟨fun he => ?_, fun he => ?_, fun he => ?_⟩ <;> rw [he] at hne <;> exact hne (by decide)

theorem character_eq (hchars : ∀ row col, col < 2 → s.keymap row col = keymapInit row col) :
    character s make.toNat (flagColumn false) =
      if shift s make.toNat then shifted make else unshifted make := by
  unfold character
  rw [if_neg (fun he => absurd he.1 (by decide))]
  split
  · exact hchars _ _ (by decide)
  · exact hchars _ _ (by decide)

/-- The column is the second where shift and caps lock differ. -/
theorem shift_iff (s : Keys) (key : ℕ) :
    shift s key = true ↔ ¬ (shiftState s = true ↔ s.capslock = true) := by
  unfold shift
  rw [between_true, Bool.and_true]
  cases shiftState s <;> cases s.capslock <;> simp

/-- The keys when a key has gone down that is neither shift nor caps lock. -/
theorem shift_toggle (h : Tracks s codes) (hshl : key ≠ KEY_SHIFT_L) (hshr : key ≠ KEY_SHIFT_R)
    (hcaps : key ≠ KEY_CAPSLOCK) (s' : Keys)
    (hs' : s' = toggle (setKey { s with extcode := false } key (flagColumn false) true) key) :
    shift s' key = true ↔ ¬ (ShiftHeld codes ↔ CapsOn codes) := by
  have hstate : shiftState s' = true ↔ ShiftHeld codes := by
    have hdown : ∀ row ≤ KEY_PRINT_SCREEN, key ≠ row → (s'.keymap row 2 ≠ 0 ↔ Held row codes) := by
      intro row hrow hne
      rw [hs', toggle_keymap, setKey_down, if_pos (Or.inr hne)]
      exact h.down row hrow
    unfold shiftState ShiftHeld
    rw [Bool.or_eq_true, decide_eq_true_iff, decide_eq_true_iff, hdown _ (by decide) hshl,
      hdown _ (by decide) hshr]
  have hlock : s'.capslock = s.capslock := by
    rw [hs', toggle_capslock, if_neg hcaps]
    rfl
  rw [shift_iff, hstate, hlock, h.capslock]

/-- The character of a key that is not extended: caps lock inverts shift, whatever
the key. -/
theorem scan_make (h : Tracks s codes) (hplain : ¬ Pending codes)
    (hmake : make.toNat ≤ KEY_PRINT_SCREEN) :
    (scan s make).2 = visible
      (if ShiftHeld codes ↔ CapsOn codes then unshifted make else shifted make) := by
  have hlt : make.toNat < 0x80 := by
    unfold KEY_PRINT_SCREEN at hmake
    omega
  have hext : s.extcode = false := by
    rw [← Bool.not_eq_true, h.extcode]
    exact hplain
  have hkey : make.toNat % 0x80 = make.toNat := Nat.mod_eq_of_lt hlt
  rw [scan_eq s (by rintro rfl; revert hlt; decide), hkey, if_neg (Nat.not_lt.mpr hmake),
    if_neg (Nat.not_le.mpr hlt), hext]
  dsimp only
  congr 1
  rw [character_eq fun row col hcol => by
    rw [toggle_keymap, setKey_chars _ _ _ _ row col hcol]
    exact h.chars row col hcol]
  by_cases hne : unshifted make = shifted make
  · rw [hne, ite_self, ite_self]
  · obtain ⟨hshl, hshr, hcaps⟩ := ordinary hne
    have hshift := shift_toggle h hshl hshr hcaps _ rfl
    by_cases heven : ShiftHeld codes ↔ CapsOn codes
    · rw [if_pos heven, if_neg (by rw [hshift]; exact not_not.mpr heven)]
    · rw [if_neg heven, if_pos (hshift.mpr heven)]

theorem visible_injective : Injective visible := by
  intro a b hab
  unfold visible at hab
  split_ifs at hab with ha hb hb
  · rw [ha, hb]
  · exact Option.some.inj hab

/-- A plain make code gives the lawful character exactly where caps lock is off, the
key is a letter, or its two characters are the same. -/
theorem scan_lawful_iff (codes : List Byte) (make : Byte) (hplain : ¬ Pending codes)
    (hmake : make.toNat ≤ KEY_PRINT_SCREEN) :
    (scan (scans codes) make).2 = visible (lawful codes make) ↔
      ¬ CapsOn codes ∨ Letter make ∨ unshifted make = shifted make := by
  rw [scan_make (tracks_scans codes) hplain hmake, visible_injective.eq_iff]
  unfold lawful
  by_cases hletter : Letter make
  · simp [hletter]
  · rw [if_neg hletter]
    by_cases hcaps : CapsOn codes <;> by_cases hshift : ShiftHeld codes <;>
      simp [hletter, hcaps, hshift, eq_comm]

/-- With shift down and up again and caps lock off, the key `a`. -/
theorem scan_lawful_iff_a :
    (scan (scans [0x2A, 0xAA]) 0x1E).2 = visible (lawful [0x2A, 0xAA] 0x1E) ↔
      ¬ CapsOn [0x2A, 0xAA] ∨ Letter 0x1E ∨ unshifted 0x1E = shifted 0x1E :=
  scan_lawful_iff [0x2A, 0xAA] 0x1E (by decide) (by decide)

/-- With caps lock on and no shift key held, the key 1 gives an exclamation mark. -/
theorem scan_caps_one :
    (scan (scans [0x3A, 0xBA]) 0x02).2 ≠ visible (lawful [0x3A, 0xBA] 0x02) ∧
      (scan (scans [0x3A, 0xBA]) 0x02).2 = some 0x21 ∧ lawful [0x3A, 0xBA] 0x02 = 0x31 := by
  decide +kernel

end Law

end Onix.Keyboard
