import Pergrep.Cli.Replace
/-!
# Interpolate — what a replacement means

A replacement is a row of pieces (`Spells`): bytes, `$$`, and references to a group by its number or its name, each as long
as it can be.  `interpolateReplacement` prints the pieces one after another.  It reads the number of a reference in 64 bits,
so it prints the replacement as it is meant unless a longer number comes back to a group that has text
(`interpolateReplacement_iff`).
-/
namespace Pergrep.Cli

def isKeyByte (c : UInt8) : Bool := isAlnumByte c || c == 0x5F

inductive Piece where
  /-- A byte that stands for itself. -/
  | text (b : UInt8)
  /-- A reference to a group, by the key that names it. -/
  | ref (key : Bytes)
deriving Repr, DecidableEq

/-- The key is not empty, and all its bytes may be in a key. -/
def IsKey (key : Bytes) : Prop := key ≠ [] ∧ ∀ c ∈ key, isKeyByte c = true

/-- The pieces of a replacement. -/
inductive Spells : Bytes → List Piece → Prop where
  | nil : Spells [] []
  | text {b : UInt8} {s : Bytes} {ps : List Piece} : b ≠ dollar → Spells s ps → Spells (b :: s) (.text b :: ps)
  /-- `$$` -/
  | escaped {s : Bytes} {ps : List Piece} : Spells s ps → Spells (dollar :: dollar :: s) (.text dollar :: ps)
  /-- `$key`, up to the first byte that is not in the key. -/
  | bare {key s : Bytes} {ps : List Piece} : IsKey key → (∀ c, s.head? = some c → isKeyByte c = false) → Spells s ps →
      Spells (dollar :: (key ++ s)) (.ref key :: ps)
  /-- `${key}` -/
  | braced {key s : Bytes} {ps : List Piece} : IsKey key → Spells s ps →
      Spells (dollar :: 0x7B :: (key ++ 0x7D :: s)) (.ref key :: ps)
  /-- A dollar with none of these after it. -/
  | alone {s : Bytes} {ps : List Piece} : s.head? ≠ some dollar → (∀ c, s.head? = some c → isKeyByte c = false) →
      (∀ key t, IsKey key → s ≠ 0x7B :: (key ++ 0x7D :: t)) → Spells s ps → Spells (dollar :: s) (.text dollar :: ps)

def numberOf (key : Bytes) : Nat := key.foldl (fun n c => n * 10 + (c.toNat - 0x30)) 0

/-- What a piece stands for, where `number` reads the numbers. -/
def Piece.shown (number : Bytes → Nat) (data : Bytes) (m : Match) : Piece → Bytes
  | .text b  => [b]
  | .ref key => if key.all isDigitByte then captureNum data m (number key) else captureName data m key

/-- **What a replacement means**: a number is the number it spells, however long. -/
def meaning (data : Bytes) (m : Match) (ps : List Piece) : Bytes := ps.flatMap (Piece.shown numberOf data m)

/-! ## Every replacement is a row of pieces -/

theorem isKeyByte_head {key s : Bytes} (hkey : IsKey key) : ∃ c rest, key ++ s = c :: rest ∧ isKeyByte c = true := by
  obtain ⟨hne, hall⟩ := hkey
  cases key with
  | nil => exact absurd rfl hne
  | cons c cs => exact ⟨c, cs ++ s, rfl, hall c List.mem_cons_self⟩

theorem takeWhile_key {key s : Bytes} (hkey : ∀ c ∈ key, isKeyByte c = true) (hs : ∀ c, s.head? = some c → isKeyByte c = false) :
    (key ++ s).takeWhile isKeyByte = key ∧ (key ++ s).dropWhile isKeyByte = s := by
  have hstop : s.takeWhile isKeyByte = [] ∧ s.dropWhile isKeyByte = s := by
    cases s with
    | nil => exact ⟨rfl, rfl⟩
    | cons c s =>
      have hc := hs c rfl
      exact ⟨List.takeWhile_cons_of_neg (by rw [hc]; exact Bool.false_ne_true),
        List.dropWhile_cons_of_neg (by rw [hc]; exact Bool.false_ne_true)⟩
  rw [List.takeWhile_append_of_pos hkey, List.dropWhile_append_of_pos hkey, hstop.1, hstop.2, List.append_nil]
  exact ⟨rfl, rfl⟩

theorem isKey_takeWhile {s : Bytes} (h : s.takeWhile isKeyByte ≠ []) : IsKey (s.takeWhile isKeyByte) :=
  ⟨h, List.all_eq_true.1 List.all_takeWhile⟩

theorem head_dropWhile (s : Bytes) : ∀ c, (s.dropWhile isKeyByte).head? = some c → isKeyByte c = false := by
  intro c hc
  have h := List.head?_dropWhile_not isKeyByte s
  rw [hc] at h
  simpa using h

/-- **Every replacement has pieces.** -/
theorem spells_exists : ∀ (n : Nat) (s : Bytes), s.length ≤ n → ∃ ps, Spells s ps
  | _, [], _ => ⟨[], .nil⟩
  | 0, b :: s, h => absurd h (Nat.not_succ_le_zero _)
  | n + 1, b :: s, h => by
    have hlen : s.length ≤ n := Nat.le_of_succ_le_succ h
    obtain ⟨ps, hps⟩ := spells_exists n s hlen
    by_cases hb : b = dollar
    · subst hb
      by_cases hdd : s.head? = some dollar
      · obtain ⟨t, rfl⟩ := List.head?_eq_some_iff.1 hdd
        obtain ⟨qs, hqs⟩ := spells_exists n t (Nat.le_of_succ_le hlen)
        exact ⟨_, .escaped hqs⟩
      · by_cases hkey : s.takeWhile isKeyByte = []
        · by_cases hbr : ∃ key t, IsKey key ∧ s = 0x7B :: (key ++ 0x7D :: t)
          · obtain ⟨key, t, hk, rfl⟩ := hbr
            rw [List.length_cons, List.length_append, List.length_cons] at hlen
            obtain ⟨qs, hqs⟩ := spells_exists n t (by omega)
            exact ⟨_, .braced hk hqs⟩
          · refine ⟨_, .alone hdd (fun c hc => ?_) (fun key t hk hs => hbr ⟨key, t, hk, hs⟩) hps⟩
            have hdrop := List.takeWhile_append_dropWhile (p := isKeyByte) (l := s)
            rw [hkey, List.nil_append] at hdrop
            rw [← hdrop] at hc
            exact head_dropWhile s c hc
        · have hsplit := List.takeWhile_append_dropWhile (p := isKeyByte) (l := s)
          have hshort : (s.dropWhile isKeyByte).length ≤ n := Nat.le_trans (List.dropWhile_sublist _).length_le hlen
          obtain ⟨qs, hqs⟩ := spells_exists n _ hshort
          rw [← hsplit]
          exact ⟨_, .bare (isKey_takeWhile hkey) (head_dropWhile s) hqs⟩
    · exact ⟨_, .text hb hps⟩

/-! ## What is printed -/

section
variable {data : Bytes} {m : Match}

theorem interpolateFrom_dollar (n : Nat) {c : UInt8} {rest : Bytes} (hc : c ≠ dollar) :
    interpolateFrom data m (n + 1) (dollar :: c :: rest) =
      (let braced := c == 0x7B
       let body := if braced then rest else c :: rest
       let key := body.takeWhile isKeyByte
       let after := body.dropWhile isKeyByte
       if key.isEmpty then dollar :: interpolateFrom data m n (c :: rest)
       else if braced && after.head? != some 0x7D then dollar :: interpolateFrom data m n (c :: rest)
       else Piece.shown keyNumber data m (.ref key) ++ interpolateFrom data m n (if braced then after.tail else after)) := by
  have hhead : ((c :: rest).head? == some dollar) = false := by simpa using hc
  have hnot : (dollar != dollar) = false := bne_self_eq_false _
  rw [interpolateFrom, hnot, if_neg Bool.false_ne_true, List.isEmpty_cons, if_neg Bool.false_ne_true, hhead,
    if_neg Bool.false_ne_true]
  rfl

theorem key_ne {c : UInt8} (h : isKeyByte c = true) : c ≠ dollar ∧ c ≠ 0x7B := by
  constructor
  · rintro rfl
    exact absurd h (by decide)
  · rintro rfl
    exact absurd h (by decide)

/-- **The loop prints the pieces**, each number read in 64 bits. -/
theorem interpolateFrom_spells {s : Bytes} {ps : List Piece} (h : Spells s ps) : ∀ n, s.length ≤ n →
    interpolateFrom data m n s = ps.flatMap (Piece.shown keyNumber data m) := by
  induction h with
  | nil =>
    intro n _
    rw [interpolateFrom]
    rfl
  | @text b s ps hb _ ih =>
    intro n hn
    obtain ⟨n, rfl⟩ : ∃ k, n = k + 1 := ⟨n - 1, by rw [List.length_cons] at hn; omega⟩
    have hne : (b != dollar) = true := bne_iff_ne.2 hb
    rw [interpolateFrom, hne, if_pos rfl, ih n (Nat.le_of_succ_le_succ hn)]
    rfl
  | @escaped s ps _ ih =>
    intro n hn
    obtain ⟨n, rfl⟩ : ∃ k, n = k + 1 := ⟨n - 1, by rw [List.length_cons] at hn; omega⟩
    rw [List.length_cons, List.length_cons] at hn
    rw [List.flatMap_cons, ← ih n (by omega)]
    rfl
  | @bare key s ps hkey hs _ ih =>
    intro n hn
    obtain ⟨n, rfl⟩ : ∃ k, n = k + 1 := ⟨n - 1, by rw [List.length_cons] at hn; omega⟩
    rw [List.length_cons, List.length_append] at hn
    obtain ⟨c, rest, hcons, hc⟩ := isKeyByte_head (s := s) hkey
    obtain ⟨htake, hdrop⟩ := takeWhile_key hkey.2 hs
    have hbr : (c == 0x7B) = false := beq_eq_false_iff_ne.2 (key_ne hc).2
    rw [hcons] at htake hdrop ⊢
    rw [interpolateFrom_dollar n (key_ne hc).1, hbr]
    dsimp only
    rw [if_neg Bool.false_ne_true, htake, hdrop, if_neg (by simpa using hkey.1), Bool.false_and, if_neg Bool.false_ne_true,
      if_neg Bool.false_ne_true, ih n (by omega), List.flatMap_cons]
  | @braced key s ps hkey _ ih =>
    intro n hn
    obtain ⟨n, rfl⟩ : ∃ k, n = k + 1 := ⟨n - 1, by rw [List.length_cons] at hn; omega⟩
    rw [List.length_cons, List.length_cons, List.length_append, List.length_cons] at hn
    obtain ⟨htake, hdrop⟩ := takeWhile_key (s := 0x7D :: s) hkey.2 (fun c hc => by cases hc; decide)
    rw [interpolateFrom_dollar n (by decide), beq_self_eq_true]
    dsimp only
    rw [if_pos rfl, htake, hdrop, if_neg (by simpa using hkey.1), List.head?_cons, bne_self_eq_false, Bool.and_false,
      if_neg Bool.false_ne_true, if_pos rfl, List.tail_cons, ih n (by omega), List.flatMap_cons]
  | @alone s ps hdd hno hbr _ ih =>
    intro n hn
    obtain ⟨n, rfl⟩ : ∃ k, n = k + 1 := ⟨n - 1, by rw [List.length_cons] at hn; omega⟩
    have ih' := ih n (Nat.le_of_succ_le_succ hn)
    rw [List.flatMap_cons, ← ih']
    cases s with
    | nil => rfl
    | cons c rest =>
      have hc : c ≠ dollar := fun hc => hdd (by rw [hc]; rfl)
      have hkeyc := hno c rfl
      rw [interpolateFrom_dollar n hc]
      dsimp only
      by_cases hb : c = 0x7B
      · subst hb
        rw [beq_self_eq_true, if_pos rfl, Bool.true_and]
        by_cases hk : rest.takeWhile isKeyByte = []
        · rw [hk, List.isEmpty_nil, if_pos rfl]
          rfl
        · have hclose : (rest.dropWhile isKeyByte).head? ≠ some 0x7D := by
            intro hclose
            obtain ⟨t, ht⟩ := List.head?_eq_some_iff.1 hclose
            refine hbr _ t (isKey_takeWhile hk) ?_
            rw [← ht, List.takeWhile_append_dropWhile]
          rw [if_neg (by simpa using hk), if_pos (bne_iff_ne.2 hclose)]
          rfl
      · have hfalse : (c == 0x7B) = false := beq_eq_false_iff_ne.2 hb
        rw [hfalse, if_neg Bool.false_ne_true, List.takeWhile_cons_of_neg (by rw [hkeyc]; exact Bool.false_ne_true),
          List.isEmpty_nil, if_pos rfl]
        rfl

/-! ## What is printed is what is meant -/

theorem keyNumber_eq (key : Bytes) : keyNumber key = numberOf key % 2 ^ 64 := by
  have hfold : ∀ (key : Bytes) (k n : Nat), k = n % 2 ^ 64 →
      key.foldl (fun n c => (n * 10 + (c.toNat - 0x30)) % 2 ^ 64) k =
        key.foldl (fun n c => n * 10 + (c.toNat - 0x30)) n % 2 ^ 64 := by
    intro key
    induction key with
    | nil => exact fun k n h => h
    | cons c key ih =>
      intro k n h
      rw [List.foldl_cons, List.foldl_cons]
      refine ih _ _ ?_
      rw [h]
      omega
  exact hfold key 0 0 rfl

theorem captureNum_past {n : Nat} (hn : n ≠ 0) (hlen : m.captures.length ≤ n) : captureNum data m n = [] := by
  rw [captureNum, if_neg hn, List.getElem?_eq_none hlen]

/-- A piece is printed as it is meant, or it is a number that is too long, which means nothing. -/
theorem shown_or (hcap : m.captures.length < 2 ^ 64) (p : Piece) :
    Piece.shown keyNumber data m p = Piece.shown numberOf data m p ∨
      ∃ key, p = .ref key ∧ key.all isDigitByte = true ∧ 2 ^ 64 ≤ numberOf key ∧
        Piece.shown keyNumber data m p = captureNum data m (numberOf key % 2 ^ 64) ∧ Piece.shown numberOf data m p = [] := by
  cases p with
  | text b => exact Or.inl rfl
  | ref key =>
    unfold Piece.shown
    dsimp only
    by_cases hdigits : key.all isDigitByte = true
    · rw [if_pos hdigits, if_pos hdigits, keyNumber_eq]
      rcases Nat.lt_or_ge (numberOf key) (2 ^ 64) with hlt | hge
      · exact Or.inl (by rw [Nat.mod_eq_of_lt hlt])
      · exact Or.inr ⟨key, rfl, hdigits, hge, rfl, captureNum_past (by omega) (by omega)⟩
    · rw [if_neg hdigits, if_neg hdigits]
      exact Or.inl rfl

theorem shown_length_le (hcap : m.captures.length < 2 ^ 64) (p : Piece) :
    (Piece.shown numberOf data m p).length ≤ (Piece.shown keyNumber data m p).length := by
  rcases shown_or hcap p with h | ⟨-, -, -, -, -, h⟩
  · rw [h]
  · rw [h]
    exact Nat.zero_le _

theorem flatMap_shown_iff (hcap : m.captures.length < 2 ^ 64) : ∀ ps : List Piece,
    ps.flatMap (Piece.shown keyNumber data m) = meaning data m ps ↔
      ∀ p ∈ ps, Piece.shown keyNumber data m p = Piece.shown numberOf data m p
  | [] => iff_of_true rfl (fun p hp => absurd hp List.not_mem_nil)
  | p :: ps => by
    have hlong : ∀ ps : List Piece, (meaning data m ps).length ≤ (ps.flatMap (Piece.shown keyNumber data m)).length := by
      intro ps
      induction ps with
      | nil => exact Nat.le_refl 0
      | cons p ps ih =>
        have hp := @shown_length_le data m hcap p
        unfold meaning at ih ⊢
        rw [List.flatMap_cons, List.flatMap_cons, List.length_append, List.length_append]
        omega
    have ih := flatMap_shown_iff hcap ps
    rw [List.forall_mem_cons, ← ih]
    unfold meaning
    rw [List.flatMap_cons, List.flatMap_cons]
    constructor
    · intro h
      have hlen := congrArg List.length h
      have hp := @shown_length_le data m hcap p
      have hps := hlong ps
      unfold meaning at hps
      rw [List.length_append, List.length_append] at hlen
      exact List.append_inj h (by omega)
    · rintro ⟨hp, hps⟩
      rw [hp, hps]

/-- **A replacement is printed as it is meant** unless it has a number of 2^64 or more that comes back, in 64 bits, to a group
with text. -/
theorem interpolateReplacement_iff (repl data : Bytes) (m : Match) (hcap : m.captures.length < 2 ^ 64) :
    (∃ ps, Spells repl ps) ∧ ∀ ps, Spells repl ps → (interpolateReplacement repl data m = meaning data m ps ↔
      ∀ key, .ref key ∈ ps → key.all isDigitByte = true → 2 ^ 64 ≤ numberOf key →
        captureNum data m (numberOf key % 2 ^ 64) = []) := by
  refine ⟨spells_exists _ repl (Nat.le_refl _), fun ps hps => ?_⟩
  rw [interpolateReplacement, interpolateFrom_spells hps _ (Nat.le_refl _), flatMap_shown_iff hcap]
  constructor
  · intro h key hkey hdigits hlong
    have hsame := h _ hkey
    unfold Piece.shown at hsame
    dsimp only at hsame
    rw [if_pos hdigits, if_pos hdigits, keyNumber_eq, captureNum_past (n := numberOf key) (by omega) (by omega)] at hsame
    exact hsame
  · intro h p hp
    rcases @shown_or data m hcap p with hsame | ⟨key, rfl, hdigits, hlong, hshown, hnone⟩
    · exact hsame
    · rw [hshown, hnone]
      exact h key hp hdigits hlong

end

def wrappingKey : Bytes :=
  [0x31, 0x38, 0x34, 0x34, 0x36, 0x37, 0x34, 0x34, 0x30, 0x37, 0x33, 0x37, 0x30, 0x39, 0x35, 0x35, 0x31, 0x36, 0x31, 0x36]

theorem wrappingKey_spells : Spells (dollar :: (wrappingKey ++ [])) [.ref wrappingKey] :=
  .bare ⟨List.cons_ne_nil _ _, List.all_eq_true.1 rfl⟩ (fun c hc => by cases hc) .nil

/-- `$1${n}$$` -/
def groupsText : Bytes := [dollar, 0x31, dollar, 0x7B, 0x6E, 0x7D, dollar, dollar]

theorem groupsText_spells : Spells groupsText [.ref [0x31], .ref [0x6E], .text dollar] := by
  have hname : Spells (dollar :: 0x7B :: ([0x6E] ++ 0x7D :: [dollar, dollar])) [.ref [0x6E], .text dollar] :=
    .braced ⟨List.cons_ne_nil _ _, List.all_eq_true.1 rfl⟩ (.escaped .nil)
  refine @Spells.bare [0x31] _ _ ⟨List.cons_ne_nil _ _, List.all_eq_true.1 rfl⟩ (fun c hc => ?_) hname
  obtain rfl := Option.some.inj hc
  decide

/-- A match of `abc`, its first group on `b` and a group named `n` on `c`. -/
def groupsMatch : Match where
  start := 0
  stop := 3
  captures := [{ start := 0, stop := 3, matched := true }, { start := 1, stop := 2, matched := true },
    { start := 2, stop := 3, matched := true, name := [0x6E] }]

/-- The two groups and a dollar. -/
theorem interpolateReplacement_groups : interpolateReplacement groupsText [0x61, 0x62, 0x63] groupsMatch =
      meaning [0x61, 0x62, 0x63] groupsMatch [.ref [0x31], .ref [0x6E], .text dollar] ∧
    meaning [0x61, 0x62, 0x63] groupsMatch [.ref [0x31], .ref [0x6E], .text dollar] = [0x62, 0x63, 0x24] := by
  refine ⟨((interpolateReplacement_iff groupsText [0x61, 0x62, 0x63] groupsMatch (by decide)).2 _ groupsText_spells).2
    (fun key hkey _ hlong => ?_), by decide +kernel⟩
  simp only [List.mem_cons, Piece.ref.injEq, reduceCtorEq, List.not_mem_nil, or_false] at hkey
  rcases hkey with rfl | rfl
  · exact absurd hlong (by decide)
  · exact absurd hlong (by decide)

/-- There is no group of that number, and the match is printed in its place. -/
theorem not_interpolateReplacement :
    ¬ ∀ (repl data : Bytes) (m : Match) (ps : List Piece), m.start ≤ m.stop → m.stop ≤ data.length → m.captures.length < 2 ^ 64 →
      Spells repl ps → interpolateReplacement repl data m = meaning data m ps := by
  intro h
  have heq := h (dollar :: (wrappingKey ++ [])) [0x61] { start := 0, stop := 1 } [.ref wrappingKey] (by decide) (by decide)
    (by decide) wrappingKey_spells
  exact absurd heq (by decide)

end Pergrep.Cli
