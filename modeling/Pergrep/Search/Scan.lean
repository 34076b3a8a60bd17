import Pergrep.Index.Data
import Pergrep.Lib.Substr
import Pergrep.Regex.Syntax
/-!
# Scan — the exact scan for a literal, and the word and line tests

`anchorFind` looks for a literal from an offset on: by its rarest byte when the case matters, rune by rune under case
folding otherwise.  `boundaryOk` is the test of the word and line modes at a found occurrence.
-/
namespace Pergrep

/-- One pass of `choose_rare_byte`: position, its byte, and the best so far. -/
def rareStep (I : IndexData) (best : Nat × Option Nat) (x : UInt8 × Nat) : Nat × Option Nat :=
  let freq := I.byteFreq x.1
  match best.2 with
  | none   => (x.2, some freq)
  | some f => if freq < f then (x.2, some freq) else best

def chooseRareByte (I : IndexData) (q : Bytes) : Nat := (q.zipIdx.foldl (rareStep I) (0, none)).1

def memchr (s : Bytes) (b : UInt8) (lo hi : Nat) : Option Nat := ((slice s lo hi).findIdx? (· == b)).map (· + lo)

/-- The loop of `anchor_find`: from one anchor byte to the next. -/
def anchorLoop (s q : Bytes) (anchor hi : Nat) : Nat → Nat → Option Nat
  | 0, _ => none
  | fuel + 1, lo =>
    if lo < hi then
      match memchr s (q.getD anchor 0) lo hi with
      | none => none
      | some apos =>
        if Substr.occursAt s q (apos - anchor) then some (apos - anchor) else anchorLoop s q anchor hi fuel (apos + 1)
    else none

section
variable (icu : Icu)

/-- `unicode_icase_equal_at`: the end of the folded occurrence of `q` (from `qp` on) at `sp`. -/
def icaseEqualLoop (s q : Bytes) : Nat → Nat → Nat → Option Nat
  | 0, sp, _ => some sp
  | fuel + 1, sp, qp =>
    if qp < q.length then
      match runeAt s sp, runeAt q qp with
      | some a, some b => if icu.cpEq a.cp b.cp true then icaseEqualLoop s q fuel a.next b.next else none
      | _, _ => none
    else some sp

def unicodeIcaseEqualAt (s q : Bytes) (pos : Nat) : Option Nat := icaseEqualLoop icu s q (q.length + 1) pos 0

def icaseLoop (s q : Bytes) (maxStart : Nat) : Nat → Nat → Option (Nat × Nat)
  | 0, _ => none
  | fuel + 1, p =>
    if p < s.length ∧ p < maxStart then
      match unicodeIcaseEqualAt icu s q p with
      | some e => some (p, e)
      | none   => icaseLoop s q maxStart fuel (((runeAt s p).map Rune.next).getD (p + 1))
    else none

/-- `anchor_find`: the first occurrence that starts in `[start, max_start)`, and its end. -/
def anchorFind (s q : Bytes) (anchor start maxStart : Nat) (icase : Bool) : Option (Nat × Nat) :=
  if q.isEmpty then
    if start ≤ s.length ∧ start < maxStart then some (start, start) else none
  else if !icase ∧ s.length < q.length then none
  else if icase then icaseLoop icu s q maxStart (s.length + 1) start
  else
    let maxStart := min maxStart (s.length - q.length + 1)
    if maxStart ≤ start then none
    else (anchorLoop s q anchor (maxStart + anchor) (maxStart + anchor + 1) (start + anchor)).map (fun x => (x, x + q.length))

/-! ## Word and line mode -/

def wordOk (unicode : Bool) (s : Bytes) (b e : Nat) : Bool :=
  if unicode then
    !(runeBefore s b).any (fun r => icu.unicodeWord r.cp) && !(runeAt s e).any (fun r => icu.unicodeWord r.cp)
  else
    !(decide (0 < b) && (s[b - 1]?).any asciiWord) && !(s[e]?).any asciiWord

/-- Record separators, or the file's ends, on both sides; under `crlf` a carriage return and line feed will do. -/
def lineOk (crlf : Bool) (sep : UInt8) (s : Bytes) (b e : Nat) : Bool :=
  !(decide (0 < b) && (s[b - 1]?).any (· != sep)) &&
  !((s[e]?).any (· != sep) && !(crlf && sep == 0x0A && s[e]? == some 0x0D && s[e + 1]? == some 0x0A))

/-- The test the word and line modes put to an occurrence in a file. -/
def boundaryOk (opt : PatternOptions) (sep : UInt8) (s : Bytes) (b e : Nat) : Bool :=
  (!opt.word || wordOk icu opt.unicode s b e) && (!opt.line || lineOk opt.crlf sep s b e)

end

end Pergrep
