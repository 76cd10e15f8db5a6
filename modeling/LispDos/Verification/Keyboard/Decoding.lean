import LispDos.Hal.Keyboard
import Mathlib.Data.List.Induction

/-! # Scancodes

The decoder of scancode set 1 that the driver is to implement, and when it does: the driver
loses track at a prefixed byte that it takes for a shift key, and at the release of one
shift key while the other is held. -/

namespace LispDos.Input

/-! ## The protocol -/

/-- A prefix that applies to the next byte, and the shift keys that are held. -/
structure Decoder where
  prefixed : Bool
  left : Bool
  right : Bool

def Decoder.start : Decoder := ⟨false, false, false⟩

/-- The decoder after a byte, and its character, zero for none. -/
def Decoder.step (r : Decoder) (byte : UInt8) : Decoder × UInt8 :=
  if r.prefixed then ({ r with prefixed := false }, arrowChar byte)
  else if byte = 0xE0 then ({ r with prefixed := true }, 0)
  else if byte = 0x2A then ({ r with left := true }, 0)
  else if byte = 0x36 then ({ r with right := true }, 0)
  else if byte = 0xAA then ({ r with left := false }, 0)
  else if byte = 0xB6 then ({ r with right := false }, 0)
  else (r, tableChar (r.left || r.right) byte)

/-- The decoder after a stream. -/
def Decoder.after (bytes : List UInt8) : Decoder := bytes.foldl (fun r b => (r.step b).1) .start

/-- The list of a character, empty for zero. -/
def chars (c : UInt8) : List UInt8 := if c ≠ 0 then [c] else []

theorem chars_injective : Function.Injective chars := by
  intro c c' h
  unfold chars at h
  split_ifs at h with hc hc' hc'
  · exact List.singleton_inj.mp h
  · rw [not_not.mp hc, not_not.mp hc']

/-- The characters of a stream. -/
def decoderChars (bytes : List UInt8) : List UInt8 :=
  (bytes.foldl (fun p b => ((p.1.step b).1, p.2 ++ chars (p.1.step b).2))
    (Decoder.start, ([] : List UInt8))).2

/-- The driver after a stream. -/
def driver (bytes : List UInt8) : System := run (bytes.map fun b => .interrupt (some b))

/-- The characters that the driver stores for a stream. -/
def driverChars (bytes : List UInt8) : List UInt8 := (driver bytes).stored

/-! ## Steps -/

variable {k : Keyboard} {r : Decoder} {b : UInt8} {bytes : List UInt8}

/-- The flags of the driver say what the decoder knows. -/
structure Agrees (k : Keyboard) (r : Decoder) : Prop where
  prefixed : k.e0Pressed = r.prefixed
  shift : k.shiftPressed = (r.left || r.right)

/-- After a prefix the byte is not one that the driver takes for a shift key or for another
prefix, and a shift key is not released while the other one is held. -/
def Plain (r : Decoder) (b : UInt8) : Prop :=
  if r.prefixed then b ∉ ([0xE0, 0x2A, 0x36, 0xAA, 0xB6] : List UInt8)
  else (b = 0xAA → r.right = false) ∧ (b = 0xB6 → r.left = false)

/-- A byte beyond the tables. -/
theorem tableChar_of_release (shift : Bool) (hb : ¬ b &&& 0x80 = 0) : tableChar shift b = 0 := by
  have hlength : scancodeToAscii.length = 58 := by decide
  rw [tableChar, hlength, if_neg]
  intro hlt
  have hclear : ∀ n < 58, UInt8.ofNat n &&& 0x80 = 0 := by decide
  exact hb (by simpa using hclear b.toNat hlt)

theorem arrowChar_of_release (hb : ¬ b &&& 0x80 = 0) : arrowChar b = 0 := by
  unfold arrowChar
  split_ifs with h₁ h₂ h₃ h₄
  · exact (hb (by rw [h₁]; decide)).elim
  · exact (hb (by rw [h₂]; decide)).elim
  · exact (hb (by rw [h₃]; decide)).elim
  · exact (hb (by rw [h₄]; decide)).elim
  · rfl

/-- While the flags agree the next character is right, whatever the byte is. -/
theorem Agrees.char_eq (h : Agrees k r) (b : UInt8) : (decode k b).2 = (r.step b).2 := by
  obtain ⟨hprefixed, hshift⟩ := h
  unfold decode Decoder.step
  by_cases hE0 : b = 0xE0
  · subst hE0
    cases r.prefixed <;> rfl
  by_cases hmake : b = 0x2A ∨ b = 0x36
  · rcases hmake with rfl | rfl <;> cases r.prefixed <;> rfl
  by_cases hbreak : b = 0xAA ∨ b = 0xB6
  · rcases hbreak with rfl | rfl <;> cases r.prefixed <;> rfl
  obtain ⟨h₁, h₂⟩ := not_or.mp hmake
  obtain ⟨h₃, h₄⟩ := not_or.mp hbreak
  rw [if_neg hE0, if_neg hmake, if_neg hbreak, if_neg hE0, if_neg h₁, if_neg h₂, if_neg h₃,
    if_neg h₄, hprefixed, hshift]
  by_cases hrelease : b &&& 0x80 = 0
  · rw [if_pos hrelease]
    cases r.prefixed <;> rfl
  · rw [if_neg hrelease]
    cases r.prefixed
    · exact (tableChar_of_release _ hrelease).symm
    · exact (arrowChar_of_release hrelease).symm

theorem Agrees.step (h : Agrees k r) (hplain : Plain r b) :
    Agrees (decode k b).1 (r.step b).1 := by
  obtain ⟨buffer, head, tail, shift, e0⟩ := k
  obtain ⟨pre, left, right⟩ := r
  obtain ⟨rfl, rfl⟩ : e0 = pre ∧ shift = (left || right) := ⟨h.prefixed, h.shift⟩
  unfold Plain at hplain
  cases e0 with
  | true =>
      simp only [if_true, List.mem_cons, List.not_mem_nil, or_false, not_or] at hplain
      obtain ⟨h₁, h₂, h₃, h₄, h₅⟩ := hplain
      -- any other byte ends the prefix
      simp only [decode, Decoder.step, h₁, h₂, h₃, h₄, h₅, or_self, if_false, if_true]
      split_ifs
      · exact ⟨rfl, rfl⟩
      · exact ⟨rfl, rfl⟩
  | false =>
      simp only [Bool.false_eq_true, if_false] at hplain
      by_cases hE0 : b = 0xE0
      · subst hE0
        exact ⟨rfl, rfl⟩
      by_cases hleft : b = 0x2A
      · subst hleft
        exact ⟨rfl, (Bool.true_or right).symm⟩
      by_cases hright : b = 0x36
      · subst hright
        exact ⟨rfl, (Bool.or_true left).symm⟩
      by_cases hup : b = 0xAA
      · subst hup
        rw [hplain.1 rfl]
        exact ⟨rfl, rfl⟩
      by_cases hup' : b = 0xB6
      · subst hup'
        rw [hplain.2 rfl]
        exact ⟨rfl, rfl⟩
      simp only [decode, Decoder.step, hE0, hleft, hright, hup, hup', or_self, if_false,
        Bool.false_eq_true]
      split_ifs
      · exact ⟨rfl, rfl⟩
      · exact ⟨rfl, rfl⟩

/-- After any other byte the driver and the decoder disagree on the letter A. -/
theorem Agrees.char_ne (h : Agrees k r) (hplain : ¬ Plain r b) :
    (decode k b).2 = 0 ∧ (r.step b).2 = 0 ∧
      (decode (decode k b).1 0x1E).2 ≠ ((r.step b).1.step 0x1E).2 := by
  obtain ⟨buffer, head, tail, shift, e0⟩ := k
  obtain ⟨pre, left, right⟩ := r
  obtain ⟨rfl, rfl⟩ : e0 = pre ∧ shift = (left || right) := ⟨h.prefixed, h.shift⟩
  unfold Plain at hplain
  cases e0 with
  | true =>
      simp only [if_true, List.mem_cons, List.not_mem_nil, or_false, not_not] at hplain
      -- the driver still waits for the prefixed byte
      have hkey : ∀ shift, (0 : UInt8) ≠ tableChar shift 0x1E := by decide
      rcases hplain with rfl | rfl | rfl | rfl | rfl
      all_goals exact ⟨rfl, rfl, hkey (left || right)⟩
  | false =>
      simp only [Bool.false_eq_true, if_false, not_and_or, Classical.not_imp,
        Bool.not_eq_false] at hplain
      -- the driver takes the other shift key for released
      have hcase : tableChar false 0x1E ≠ tableChar true 0x1E := by decide
      rcases hplain with ⟨rfl, rfl⟩ | ⟨rfl, rfl⟩
      · exact ⟨rfl, rfl, hcase⟩
      · exact ⟨rfl, rfl, hcase⟩

/-! ## Streams -/

theorem driver_snoc (bytes : List UInt8) (b : UInt8) :
    driver (bytes ++ [b]) = (driver bytes).step (.interrupt (some b)) := by
  rw [driver, run, List.map_append, List.foldl_append]
  rfl

theorem driverChars_snoc (bytes : List UInt8) (b : UInt8) :
    driverChars (bytes ++ [b]) =
      driverChars bytes ++ chars (decode (driver bytes).keyboard b).2 := by
  rw [driverChars, driver_snoc]
  rfl

theorem after_snoc (bytes : List UInt8) (b : UInt8) :
    Decoder.after (bytes ++ [b]) = ((Decoder.after bytes).step b).1 := by
  rw [Decoder.after, List.foldl_append]
  rfl

theorem decoderChars_snoc (bytes : List UInt8) (b : UInt8) :
    decoderChars (bytes ++ [b]) =
      decoderChars bytes ++ chars ((Decoder.after bytes).step b).2 := by
  have hpair : ∀ bs : List UInt8, (bs.foldl (fun p b => ((p.1.step b).1, p.2 ++ chars (p.1.step b).2))
      (Decoder.start, ([] : List UInt8))).1 = Decoder.after bs := by
    intro bs
    induction bs using List.reverseRecOn with
    | nil => rfl
    | append_singleton bs b ih =>
        rw [List.foldl_append, after_snoc, ← ih]
        rfl
  rw [decoderChars, List.foldl_append, ← hpair bytes]
  rfl

/-- Every byte of the stream is plain where it comes. -/
def AllPlain (bytes : List UInt8) : Prop :=
  ∀ p b, p ++ [b] <+: bytes → Plain (Decoder.after p) b

theorem AllPlain.agrees (h : AllPlain bytes) :
    Agrees (driver bytes).keyboard (Decoder.after bytes) ∧
      driverChars bytes = decoderChars bytes := by
  induction bytes using List.reverseRecOn with
  | nil => exact ⟨⟨rfl, rfl⟩, rfl⟩
  | append_singleton bytes b ih =>
      obtain ⟨hagrees, hchars⟩ := ih fun p c hp => h p c (hp.trans (List.prefix_append _ _))
      have hstore : ∀ (k : Keyboard) (c : UInt8), (k.store c).e0Pressed = k.e0Pressed ∧
          (k.store c).shiftPressed = k.shiftPressed := by
        intro k c
        unfold Keyboard.store
        split_ifs <;> exact ⟨rfl, rfl⟩
      obtain ⟨he0, hshift⟩ := hagrees.step (h bytes b List.prefix_rfl)
      rw [driver_snoc, after_snoc, driverChars_snoc, decoderChars_snoc, hchars, hagrees.char_eq]
      exact ⟨⟨(hstore _ _).1.trans he0, (hstore _ _).2.trans hshift⟩, rfl⟩

/-- What the driver stores for a stream, and would store for each next byte, is what the
decoder gives, in every state that it reaches, exactly if every byte is plain. -/
theorem scancodes_decoded_iff (bytes : List UInt8) :
    AllPlain bytes ↔ ∀ p, p <+: bytes → driverChars p = decoderChars p ∧
      ∀ b, driverChars (p ++ [b]) = decoderChars (p ++ [b]) := by
  constructor
  · intro h p hp
    have hpre : AllPlain p := fun q c hq => h q c (hq.trans hp)
    obtain ⟨hagrees, hchars⟩ := hpre.agrees
    refine ⟨hchars, ?_⟩
    intro b
    rw [driverChars_snoc, decoderChars_snoc, hchars, hagrees.char_eq]
  · intro h
    induction bytes using List.reverseRecOn with
    | nil =>
        intro p b hp
        simp at hp
    | append_singleton bytes b ih =>
        have hbefore : AllPlain bytes :=
          ih fun p hp => h p (hp.trans (List.prefix_append _ _))
        have hlast : Plain (Decoder.after bytes) b := by
          by_contra hplain
          obtain ⟨hdriver, hdecoder, hne⟩ := hbefore.agrees.1.char_ne hplain
          have hkey := (h _ List.prefix_rfl).2 0x1E
          rw [driverChars_snoc, decoderChars_snoc, driverChars_snoc, decoderChars_snoc, hdriver,
            hdecoder, hbefore.agrees.2, after_snoc] at hkey
          have hkeyboard : (driver (bytes ++ [b])).keyboard =
              (decode (driver bytes).keyboard b).1.store (decode (driver bytes).keyboard b).2 := by
            rw [driver_snoc]
            rfl
          rw [hkeyboard, hdriver] at hkey
          exact hne (chars_injective (List.append_cancel_left hkey))
        intro p c hp
        rcases List.prefix_concat_iff.mp hp with heq | hp
        · obtain ⟨rfl, hc⟩ := List.append_inj' heq rfl
          rw [List.singleton_inj.mp hc]
          exact hlast
        · exact hbefore p c hp

/-- A prefixed shift key: the driver drops the key that follows. -/
theorem fake_shift_drops_key :
    driverChars [0xE0, 0x2A, 0x1E] ≠ decoderChars [0xE0, 0x2A, 0x1E] := by
  decide

end LispDos.Input
