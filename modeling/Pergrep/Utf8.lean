import Pergrep.Lib.Utf
/-!
# Utf8 — the UTF-8 decoder and encoder the engine reads text with

`rune_at` and `rune_before` of `regex.cpp` (and their twins `decode_rune` and `decode_prev` of `search.cpp`) sit on
ICU's `U8_NEXT` and `U8_PREV`; the sequence these accept is the well-formed one of the Unicode standard, and any other
byte is read alone, as the code point of its own value.  Offsets are naturals: a corpus is at most 1 GiB
(`kMaxCorpusBytes`), so the `int32_t` casts of the source never truncate.
-/
namespace Pergrep

abbrev Bytes := List UInt8

/-- `U8_IS_TRAIL` -/
def isTrail (b : UInt8) : Bool := 0x80 ≤ b && b < 0xC0

/-- `U8_IS_VALID_LEAD3_AND_T1`: no overlong form, no surrogate. -/
def validLead3AndT1 (b0 b1 : UInt8) : Bool :=
  isTrail b1 && (b0 != 0xE0 || 0xA0 ≤ b1) && (b0 != 0xED || b1 < 0xA0)

/-- `U8_IS_VALID_LEAD4_AND_T1`: no overlong form, nothing above U+10FFFF. -/
def validLead4AndT1 (b0 b1 : UInt8) : Bool :=
  isTrail b1 && (b0 != 0xF0 || 0x90 ≤ b1) && (b0 != 0xF4 || b1 < 0x90)

/-- `U8_NEXT`: the code point and the width of the well-formed sequence at the head, `none` where ICU answers a
negative code point. -/
def u8Next : Bytes → Option (Nat × Nat)
  | [] => none
  | b0 :: t =>
    if b0 < 0x80 then some (b0.toNat, 1)
    else if b0 < 0xC2 then none
    else if b0 < 0xE0 then
      match t with
      | b1 :: _ => if isTrail b1 then some ((b0.toNat - 0xC0) * 64 + (b1.toNat - 0x80), 2) else none
      | [] => none
    else if b0 < 0xF0 then
      match t with
      | b1 :: b2 :: _ =>
        if validLead3AndT1 b0 b1 && isTrail b2 then
          some ((b0.toNat - 0xE0) * 4096 + (b1.toNat - 0x80) * 64 + (b2.toNat - 0x80), 3)
        else none
      | _ => none
    else if b0 < 0xF5 then
      match t with
      | b1 :: b2 :: b3 :: _ =>
        if validLead4AndT1 b0 b1 && isTrail b2 && isTrail b3 then
          some ((b0.toNat - 0xF0) * 262144 + (b1.toNat - 0x80) * 4096 + (b2.toNat - 0x80) * 64 + (b3.toNat - 0x80), 4)
        else none
      | _ => none
    else none

/-- A decoded code point and the offset after it (or, read backwards, before it). -/
structure Rune where
  cp : Nat
  next : Nat
  deriving DecidableEq, Repr

/-- `rune_at` / `decode_rune`: `none` is the source's `ok = false`. -/
def runeAt (s : Bytes) (pos : Nat) : Option Rune :=
  match s.drop pos with
  | [] => none
  | b :: t =>
    match u8Next (b :: t) with
    | some (cp, w) => some ⟨cp, pos + w⟩
    | none         => some ⟨b.toNat, pos + 1⟩

/-- `U8_PREV`: the well-formed sequence that ends at `pos`, of one to four bytes. -/
def u8Prev (s : Bytes) (pos : Nat) : Option (Nat × Nat) :=
  [1, 2, 3, 4].findSome? (fun w =>
    if w ≤ pos then
      match u8Next (s.drop (pos - w)) with
      | some (cp, w') => if w' = w then some (cp, pos - w) else none
      | none => none
    else none)

def runeBefore (s : Bytes) (pos : Nat) : Option Rune :=
  if pos = 0 then none
  else
    match u8Prev s pos with
    | some (cp, i) => some ⟨cp, i⟩
    | none => (s[pos - 1]?).map (fun b => ⟨b.toNat, pos - 1⟩)

/-- `U8_APPEND_UNSAFE`: the UTF-8 form of a code point. -/
def appendUtf8 (cp : Nat) : Bytes :=
  if cp < 0x80 then [UInt8.ofNat cp]
  else if cp < 0x800 then [UInt8.ofNat (0xC0 + cp / 64), UInt8.ofNat (0x80 + cp % 64)]
  else if cp < 0x10000 then
    [UInt8.ofNat (0xE0 + cp / 4096), UInt8.ofNat (0x80 + cp / 64 % 64), UInt8.ofNat (0x80 + cp % 64)]
  else
    [UInt8.ofNat (0xF0 + cp / 262144), UInt8.ofNat (0x80 + cp / 4096 % 64), UInt8.ofNat (0x80 + cp / 64 % 64),
      UInt8.ofNat (0x80 + cp % 64)]

/-- The runes of a byte string, decoded from an offset on.  The fuel is the number of bytes left. -/
def runesFrom (s : Bytes) : Nat → Nat → List Nat
  | 0, _ => []
  | fuel + 1, pos =>
    match runeAt s pos with
    | some r => r.cp :: runesFrom s fuel r.next
    | none   => []

def runes (s : Bytes) : List Nat := runesFrom s s.length 0

/-! ## What the decoder reads -/

theorem u8Next_width {s : Bytes} {cp w : Nat} (h : u8Next s = some (cp, w)) :
    1 ≤ w ∧ w ≤ 4 ∧ w ≤ s.length := by
  unfold u8Next at h
  split at h
  · cases h
  · rename_i b0 t
    repeat' split at h
    all_goals simp only [Option.some.injEq, Prod.mk.injEq, reduceCtorEq] at h
    all_goals
      obtain ⟨-, rfl⟩ := h
      simp

theorem length_appendUtf8 (cp : Nat) : (appendUtf8 cp).length =
    if cp < 0x80 then 1 else if cp < 0x800 then 2 else if cp < 0x10000 then 3 else 4 := by
  unfold appendUtf8
  repeat' split
  all_goals rfl

/-- A sequence that is accepted is accepted whatever follows it, and its bytes after the first are trail bytes. -/
theorem u8Next_split {s : Bytes} {cp w : Nat} (h : u8Next s = some (cp, w)) : ∃ l t, s = l ++ t ∧ l.length = w ∧
    (∀ b ∈ l.tail, isTrail b = true) ∧ ∀ t', u8Next (l ++ t') = some (cp, w) := by
  rw [u8Next.eq_def] at h
  cases s with
  | nil => cases h
  | cons b0 t =>
    dsimp only at h
    by_cases h1 : b0 < 0x80
    · rw [if_pos h1] at h
      cases h
      exact ⟨[b0], t, rfl, rfl, fun b hb => absurd hb List.not_mem_nil, fun t' => by
        rw [List.singleton_append, u8Next.eq_def]; exact if_pos h1⟩
    rw [if_neg h1] at h
    by_cases h2 : b0 < 0xC2
    · rw [if_pos h2] at h
      cases h
    rw [if_neg h2] at h
    by_cases h3 : b0 < 0xE0
    · rw [if_pos h3] at h
      rcases t with _ | ⟨b1, t⟩
      · cases h
      dsimp only at h
      split at h
      · rename_i hv
        refine ⟨[b0, b1], t, rfl, (Prod.mk.inj (Option.some.inj h)).2, ?_, fun t' => ?_⟩
        · simpa only [List.tail_cons, List.mem_singleton, forall_eq] using hv
        · rw [List.cons_append, List.singleton_append, u8Next, if_neg h1, if_neg h2, if_pos h3]
          exact (if_pos hv).trans h
      · cases h
    rw [if_neg h3] at h
    by_cases h4 : b0 < 0xF0
    · rw [if_pos h4] at h
      rcases t with _ | ⟨b1, _ | ⟨b2, t⟩⟩
      · cases h
      · cases h
      dsimp only at h
      split at h
      · rename_i hv
        have hv' := hv
        rw [validLead3AndT1, Bool.and_eq_true, Bool.and_eq_true, Bool.and_eq_true] at hv'
        refine ⟨[b0, b1, b2], t, rfl, (Prod.mk.inj (Option.some.inj h)).2, ?_, fun t' => ?_⟩
        · simp only [List.tail_cons, List.mem_cons, List.not_mem_nil, or_false, forall_eq_or_imp, forall_eq]
          exact ⟨hv'.1.1.1, hv'.2⟩
        · rw [List.cons_append, List.cons_append, List.singleton_append, u8Next, if_neg h1, if_neg h2, if_neg h3, if_pos h4]
          exact (if_pos hv).trans h
      · cases h
    rw [if_neg h4] at h
    by_cases h5 : b0 < 0xF5
    · rw [if_pos h5] at h
      rcases t with _ | ⟨b1, _ | ⟨b2, _ | ⟨b3, t⟩⟩⟩
      · cases h
      · cases h
      · cases h
      dsimp only at h
      split at h
      · rename_i hv
        have hv' := hv
        rw [validLead4AndT1, Bool.and_eq_true, Bool.and_eq_true, Bool.and_eq_true, Bool.and_eq_true] at hv'
        refine ⟨[b0, b1, b2, b3], t, rfl, (Prod.mk.inj (Option.some.inj h)).2, ?_, fun t' => ?_⟩
        · simp only [List.tail_cons, List.mem_cons, List.not_mem_nil, or_false, forall_eq_or_imp, forall_eq]
          exact ⟨hv'.1.1.1.1, hv'.1.2, hv'.2⟩
        · rw [List.cons_append, List.cons_append, List.cons_append, List.singleton_append, u8Next, if_neg h1, if_neg h2,
            if_neg h3, if_neg h4, if_pos h5]
          exact (if_pos hv).trans h
      · cases h
    · rw [if_neg h5] at h
      cases h

theorem u8Next_le_appendUtf8 {s : Bytes} {cp w : Nat} (h : u8Next s = some (cp, w)) : w ≤ (appendUtf8 cp).length := by
  rw [length_appendUtf8]
  unfold u8Next at h
  split at h
  · cases h
  · rename_i b0 t
    repeat' split at h
    all_goals simp only [Option.some.injEq, Prod.mk.injEq, reduceCtorEq] at h
    all_goals obtain ⟨rfl, rfl⟩ := h
    all_goals
      simp only [isTrail, validLead3AndT1, validLead4AndT1, Bool.and_eq_true, Bool.or_eq_true, bne_iff_ne, ne_eq,
        decide_eq_true_eq, UInt8.lt_iff_toNat_lt, UInt8.le_iff_toNat_le, ← UInt8.toNat_inj, UInt8.reduceToNat] at *
    all_goals repeat' split
    all_goals omega

theorem runeAt_eq_none {s : Bytes} {pos : Nat} : runeAt s pos = none ↔ s.length ≤ pos := by
  unfold runeAt
  split
  · rename_i h
    simpa [List.drop_eq_nil_iff] using h
  · rename_i b t h
    have hlt : pos < s.length := by
      by_contra hge
      rw [List.drop_eq_nil_of_le (by omega)] at h
      cases h
    split <;> simp [hlt]

theorem runeAt_next {s : Bytes} {pos : Nat} {r : Rune} (h : runeAt s pos = some r) :
    pos < r.next ∧ r.next ≤ s.length ∧ r.next ≤ pos + 4 := by
  have hlt : pos < s.length := by
    by_contra hge
    rw [runeAt_eq_none.2 (by omega)] at h
    cases h
  unfold runeAt at h
  split at h
  · cases h
  · rename_i b t hd
    split at h
    · rename_i cp w hu
      cases h
      obtain ⟨h1, h4, hl⟩ := u8Next_width hu
      rw [← hd, List.length_drop] at hl
      simp only
      omega
    · cases h
      simp only
      omega

theorem runeAt_le_appendUtf8 {s : Bytes} {pos : Nat} {r : Rune} (h : runeAt s pos = some r) :
    r.next ≤ pos + (appendUtf8 r.cp).length := by
  unfold runeAt at h
  split at h
  · cases h
  · split at h
    · rename_i cp w hu
      cases h
      exact Nat.add_le_add_left (u8Next_le_appendUtf8 hu) pos
    · cases h
      rw [length_appendUtf8]
      dsimp only
      repeat' split
      all_goals omega

theorem runeAt_isSome {s : Bytes} {pos : Nat} (h : pos < s.length) : ∃ r, runeAt s pos = some r := by
  cases hr : runeAt s pos with
  | some r => exact ⟨r, rfl⟩
  | none => rw [runeAt_eq_none] at hr; omega

/-! ## What the encoder writes -/

theorem length_appendUtf8_pos (cp : Nat) : 1 ≤ (appendUtf8 cp).length := by
  rw [length_appendUtf8]
  repeat' split
  all_goals omega

theorem utf8EncodeChar_eq (c : Char) : String.utf8EncodeChar c = appendUtf8 c.toNat := by
  have hval : c.val.toNat = c.toNat := rfl
  have hlt := Utf.toNat_lt c
  unfold String.utf8EncodeChar appendUtf8
  rw [hval]
  dsimp only
  by_cases h1 : c.toNat < 0x80
  · rw [if_pos (by omega), if_pos h1]
  · rw [if_neg (by omega), if_neg h1]
    by_cases h2 : c.toNat < 0x800
    · rw [if_pos (by omega), if_pos h2, Nat.mod_eq_of_lt (by omega), Nat.add_comm, Nat.add_comm (c.toNat % 0x40)]
    · rw [if_neg (by omega), if_neg h2]
      by_cases h3 : c.toNat < 0x10000
      · rw [if_pos (by omega), if_pos h3, Nat.mod_eq_of_lt (a := c.toNat / 4096) (by omega), Nat.add_comm,
          Nat.add_comm (c.toNat / 64 % 0x40), Nat.add_comm (c.toNat % 0x40)]
      · rw [if_neg (by omega), if_neg h3, Nat.mod_eq_of_lt (a := c.toNat / 262144) (by omega), Nat.add_comm,
          Nat.add_comm (c.toNat / 4096 % 0x40), Nat.add_comm (c.toNat / 64 % 0x40), Nat.add_comm (c.toNat % 0x40)]

theorem utf8_cons (c : Char) (cs : List Char) : Utf.utf8 (c :: cs) = appendUtf8 c.toNat ++ Utf.utf8 cs := by
  rw [Utf.utf8, List.flatMap_cons, utf8EncodeChar_eq]
  rfl

theorem isTrail_ofNat {k : Nat} (h : k < 0x40) : isTrail (UInt8.ofNat (0x80 + k)) = true := by
  have hk : (UInt8.ofNat (0x80 + k)).toNat = 0x80 + k := UInt8.toNat_ofNat_of_lt' (by simp only [UInt8.size]; omega)
  rw [isTrail, Bool.and_eq_true, decide_eq_true_eq, decide_eq_true_eq, UInt8.le_iff_toNat_le, UInt8.lt_iff_toNat_lt, hk]
  simp only [UInt8.reduceToNat]
  omega

theorem toNat_ofNat_byte {k : Nat} (h : k < 0x100) : (UInt8.ofNat k).toNat = k :=
  UInt8.toNat_ofNat_of_lt' (by simp only [UInt8.size]; omega)

/-- **The decoder reads back what the encoder writes.** -/
theorem u8Next_appendUtf8 {cp : Nat} (h : cp.isValidChar) (t : Bytes) :
    u8Next (appendUtf8 cp ++ t) = some (cp, (appendUtf8 cp).length) := by
  have hlt : cp < 0x110000 := by
    rcases h with h | h
    · omega
    · exact h.2
  have hsur : cp < 0xD800 ∨ 0xDFFF < cp := h.imp id And.left
  unfold appendUtf8
  split_ifs with h1 h2 h3
  · have hb := toNat_ofNat_byte (k := cp) (by omega)
    rw [List.singleton_append, u8Next.eq_def]
    dsimp only
    rw [if_pos (by rw [UInt8.lt_iff_toNat_lt, hb]; exact h1), hb]
    rfl
  · have hb := toNat_ofNat_byte (k := 0xC0 + cp / 64) (by omega)
    have ht := toNat_ofNat_byte (k := 0x80 + cp % 64) (by omega)
    rw [List.cons_append, List.singleton_append, u8Next]
    simp only [UInt8.lt_iff_toNat_lt, hb, ht, UInt8.reduceToNat, isTrail_ofNat (Nat.mod_lt cp (by omega : 64 > 0))]
    rw [if_neg (by omega), if_neg (by omega), if_pos (by omega), if_true,
      show (0xC0 + cp / 64 - 0xC0) * 64 + (0x80 + cp % 64 - 0x80) = cp by omega]
    rfl
  · have hb := toNat_ofNat_byte (k := 0xE0 + cp / 4096) (by omega)
    have ht := toNat_ofNat_byte (k := 0x80 + cp / 64 % 64) (by omega)
    have hu := toNat_ofNat_byte (k := 0x80 + cp % 64) (by omega)
    have hlead : validLead3AndT1 (UInt8.ofNat (0xE0 + cp / 4096)) (UInt8.ofNat (0x80 + cp / 64 % 64)) = true := by
      simp only [validLead3AndT1, isTrail_ofNat (Nat.mod_lt (cp / 64) (by omega : 64 > 0)), Bool.true_and, Bool.and_eq_true,
        Bool.or_eq_true, bne_iff_ne, ne_eq, decide_eq_true_eq, UInt8.lt_iff_toNat_lt, UInt8.le_iff_toNat_le,
        ← UInt8.toNat_inj, hb, ht, UInt8.reduceToNat]
      omega
    rw [List.cons_append, List.cons_append, List.singleton_append, u8Next]
    simp only [UInt8.lt_iff_toNat_lt, hb, ht, hu, UInt8.reduceToNat, isTrail_ofNat (Nat.mod_lt cp (by omega : 64 > 0)), hlead]
    rw [if_neg (by omega), if_neg (by omega), if_neg (by omega), if_pos (by omega), Bool.and_self, if_pos rfl,
      show (0xE0 + cp / 4096 - 0xE0) * 4096 + (0x80 + cp / 64 % 64 - 0x80) * 64 + (0x80 + cp % 64 - 0x80) = cp by omega]
    rfl
  · have hb := toNat_ofNat_byte (k := 0xF0 + cp / 262144) (by omega)
    have ht := toNat_ofNat_byte (k := 0x80 + cp / 4096 % 64) (by omega)
    have hu := toNat_ofNat_byte (k := 0x80 + cp / 64 % 64) (by omega)
    have hv := toNat_ofNat_byte (k := 0x80 + cp % 64) (by omega)
    have hlead : validLead4AndT1 (UInt8.ofNat (0xF0 + cp / 262144)) (UInt8.ofNat (0x80 + cp / 4096 % 64)) = true := by
      simp only [validLead4AndT1, isTrail_ofNat (Nat.mod_lt (cp / 4096) (by omega : 64 > 0)), Bool.true_and,
        Bool.and_eq_true, Bool.or_eq_true, bne_iff_ne, ne_eq, decide_eq_true_eq, UInt8.lt_iff_toNat_lt,
        UInt8.le_iff_toNat_le, ← UInt8.toNat_inj, hb, ht, UInt8.reduceToNat]
      omega
    rw [List.cons_append, List.cons_append, List.cons_append, List.singleton_append, u8Next]
    simp only [UInt8.lt_iff_toNat_lt, hb, ht, hu, hv, UInt8.reduceToNat, isTrail_ofNat (Nat.mod_lt cp (by omega : 64 > 0)),
      isTrail_ofNat (Nat.mod_lt (cp / 64) (by omega : 64 > 0)), hlead]
    rw [if_neg (by omega), if_neg (by omega), if_neg (by omega), if_neg (by omega), if_pos (by omega), Bool.and_self,
      Bool.and_self, if_pos rfl, show (0xF0 + cp / 262144 - 0xF0) * 262144 + (0x80 + cp / 4096 % 64 - 0x80) * 4096 +
        (0x80 + cp / 64 % 64 - 0x80) * 64 + (0x80 + cp % 64 - 0x80) = cp by omega]
    rfl

/-- **The runes of a text's form are the text.** -/
theorem runesFrom_utf8 {s : Bytes} : ∀ {cs : List Char} {fuel pos : Nat}, s.drop pos = Utf.utf8 cs → cs.length ≤ fuel →
    runesFrom s fuel pos = cs.map Char.toNat
  | [], 0, _, _, _ => rfl
  | [], fuel + 1, pos, h, _ => by
    rw [runesFrom, runeAt_eq_none.2 (List.drop_eq_nil_iff.1 h)]
    rfl
  | c :: cs, 0, _, _, hf => absurd hf (Nat.not_succ_le_zero _)
  | c :: cs, fuel + 1, pos, h, hf => by
    rw [utf8_cons] at h
    have hpos := length_appendUtf8_pos c.toNat
    have hr : runeAt s pos = some ⟨c.toNat, pos + (appendUtf8 c.toNat).length⟩ := by
      have hn := u8Next_appendUtf8 (show c.toNat.isValidChar from c.valid) (Utf.utf8 cs)
      unfold runeAt
      rw [h]
      cases he : appendUtf8 c.toNat ++ Utf.utf8 cs with
      | nil =>
        have := congrArg List.length he
        rw [List.length_append, List.length_nil] at this
        omega
      | cons b t =>
        rw [he] at hn
        dsimp only
        rw [hn]
    rw [runesFrom, hr]
    dsimp only
    rw [runesFrom_utf8 (by rw [← List.drop_drop, h, List.drop_left]) (Nat.le_of_succ_le_succ hf), List.map_cons]

theorem ofNat_eq_byte {b : UInt8} {n : Nat} (h : n = b.toNat) : UInt8.ofNat n = b := by rw [h, UInt8.ofNat_toNat]

/-- **A sequence that is accepted is the form of what it reads as.** -/
theorem take_u8Next {s : Bytes} {cp w : Nat} (h : u8Next s = some (cp, w)) : s.take w = appendUtf8 cp := by
  unfold u8Next at h
  split at h
  · cases h
  rename_i b0 t
  repeat' split at h
  all_goals simp only [Option.some.injEq, Prod.mk.injEq, reduceCtorEq] at h
  all_goals obtain ⟨rfl, rfl⟩ := h
  all_goals
    simp only [isTrail, validLead3AndT1, validLead4AndT1, Bool.and_eq_true, Bool.or_eq_true, bne_iff_ne, ne_eq,
      decide_eq_true_eq, UInt8.lt_iff_toNat_lt, UInt8.le_iff_toNat_le, ← UInt8.toNat_inj, UInt8.reduceToNat] at *
  · rw [appendUtf8, if_pos (by omega), ofNat_eq_byte rfl]
    rfl
  · rw [appendUtf8, if_neg (by omega), if_pos (by omega), ofNat_eq_byte, ofNat_eq_byte]
    · rfl
    all_goals omega
  · rw [appendUtf8, if_neg (by omega), if_neg (by omega), if_pos (by omega), ofNat_eq_byte, ofNat_eq_byte, ofNat_eq_byte]
    · rfl
    all_goals omega
  · rw [appendUtf8, if_neg (by omega), if_neg (by omega), if_neg (by omega), ofNat_eq_byte, ofNat_eq_byte, ofNat_eq_byte,
      ofNat_eq_byte]
    · rfl
    all_goals omega

theorem runeAt_form {s : Bytes} {pos : Nat} {r : Rune} (h : runeAt s pos = some r) (hcp : r.cp < 0x80 ∨ 0x100 ≤ r.cp) :
    appendUtf8 r.cp <+: s.drop pos ∧ r.next = pos + (appendUtf8 r.cp).length := by
  unfold runeAt at h
  split at h
  · cases h
  rename_i b t hd
  split at h
  · rename_i cp w hw
    cases h
    have hform := take_u8Next hw
    have hlen := (u8Next_width hw).2.2
    rw [hd, ← hform]
    exact ⟨List.take_prefix _ _, by rw [List.length_take, Nat.min_eq_left hlen]⟩
  · -- a byte that is read alone is no ASCII byte
    rename_i hnone
    cases h
    dsimp only at hcp
    have hb : b.toNat < 0x80 := by
      have := b.toNat_lt
      omega
    rw [u8Next.eq_def] at hnone
    dsimp only at hnone
    rw [if_pos (UInt8.lt_iff_toNat_lt.2 hb)] at hnone
    cases hnone

theorem length_le_utf8 : ∀ cs : List Char, cs.length ≤ (Utf.utf8 cs).length
  | [] => Nat.le_refl 0
  | c :: cs => by
    have := length_le_utf8 cs
    have := length_appendUtf8_pos c.toNat
    rw [utf8_cons, List.length_append, List.length_cons]
    omega

theorem runes_utf8 (cs : List Char) : runes (Utf.utf8 cs) = cs.map Char.toNat :=
  runesFrom_utf8 (by rw [List.drop_zero]) (length_le_utf8 cs)

end Pergrep
