import Mathlib.Data.List.Dedup
import Mathlib.Data.List.Sort
import Pergrep.Lib.BitWords
import Pergrep.Utf8
/-!
# Data — `IndexData` and the q-gram queries put to it

The index keeps, for each chunk of a file, which 4-byte windows (q-grams) its text holds, hashed: eight `Group`s of
chunks by size class, each a Bloom filter with one row of chunk bits per hash bucket, and for each chunk a positional
filter with one row of block bits per hash row.  Both are flat arrays of words (`BitWords`).
-/
namespace Pergrep

open BitWords

/-- `qgram4_key`: the four bytes, least significant first. -/
def qgram4Key : Bytes → UInt32
  | b0 :: b1 :: b2 :: b3 :: _ => b0.toUInt32 ||| (b1.toUInt32 <<< 8) ||| (b2.toUInt32 <<< 16) ||| (b3.toUInt32 <<< 24)
  | _ => 0

def hash4 (p : Bytes) : Nat :=
  let x := qgram4Key p
  let x := (x ^^^ (x >>> 16)) * 0x7feb352d
  let x := (x ^^^ (x >>> 15)) * 0x846ca68b
  (x ^^^ (x >>> 16)).toNat

def windows (s : Bytes) : List Bytes := (List.range (s.length - 3)).map (fun j => (s.drop j).take 4)

def qgrams (s : Bytes) : List Nat := (windows s).map hash4

/-- `lg_for`, its loop: `b` doubles until it reaches what is wanted. -/
def lgLoop (want : Nat) : Nat → Nat → Nat → Nat
  | 0, _, lg => lg
  | fuel + 1, b, lg => if b < want ∧ lg < 16 then lgLoop want fuel (b * 2) (lg + 1) else lg

/-- `lg_for`: the size class of a chunk of `n` bytes. -/
def lgFor (n : Nat) : Nat := lgLoop (min (max (n * 2) 512) 65536) 7 512 9

def sortDistinct (l : List Nat) : List Nat := (l.insertionSort (· ≤ ·)).dedup

theorem mem_sortDistinct {l : List Nat} {x : Nat} : x ∈ sortDistinct l ↔ x ∈ l := by
  rw [sortDistinct, List.mem_dedup, List.mem_insertionSort]

theorem sortDistinct_sorted (l : List Nat) : (sortDistinct l).Pairwise (· < ·) := by
  have hle : (sortDistinct l).Pairwise (· ≤ ·) :=
    List.Pairwise.sublist (List.dedup_sublist _) (List.pairwise_insertionSort (· ≤ ·) l)
  exact (hle.and (List.nodup_dedup _)).imp (fun ⟨h1, h2⟩ => Nat.lt_of_le_of_ne h1 h2)

/-! ## Queries -/

/-- A class of a query: the rows it asks for, 64 to a word. -/
abbrev QueryClass := List (Nat × Nat)

def packRow (v : QueryClass) (x : Nat) : QueryClass :=
  match v.getLast? with
  | some (w, mask) =>
    if w = x / 64 then v.dropLast ++ [(w, mask ||| 1 <<< (x % 64))] else v ++ [(x / 64, 1 <<< (x % 64))]
  | none => v ++ [(x / 64, 1 <<< (x % 64))]

structure QueryDesc where
  hashes : List Nat := []
  classes : List QueryClass := []
  deriving DecidableEq, Repr

/-- The rows of one size class: the hashes under the class's mask. -/
def queryClass (hashes : List Nat) (lg : Nat) : QueryClass :=
  (sortDistinct (hashes.map (fun h => h &&& (2 ^ lg - 1)))).foldl packRow []

def compileQgramQuery (selected : List Nat) : QueryDesc :=
  { hashes := selected, classes := (List.range 8).map (fun k => queryClass selected (k + 9)) }

/-! ## The index -/

/-- The `double` ratio of the positional layer, by its bits. -/
structure BudgetRatio where
  bits : UInt64 := 0x3fe0000000000000
  deriving DecidableEq, Repr

namespace BudgetRatio

def exponent (r : BudgetRatio) : Nat := r.bits.toNat / 2 ^ 52 % 2048

def fraction (r : BudgetRatio) : Nat := r.bits.toNat % 2 ^ 52

def isFinite (r : BudgetRatio) : Bool := r.exponent != 2047

def isNaN (r : BudgetRatio) : Bool := r.exponent == 2047 && r.fraction != 0

def isZero (r : BudgetRatio) : Bool := r.bits.toNat % 2 ^ 63 == 0

/-- What `validate_index_options` lets through: neither `ratio < 0.0` nor `ratio > 10.0`, which a NaN is not either. -/
def inRange (r : BudgetRatio) : Bool :=
  r.isNaN || (if r.bits.toNat < 2 ^ 63 then r.bits.toNat ≤ 0x4024000000000000 else r.isZero)

def same (a b : BudgetRatio) : Bool := !a.isNaN && !b.isNaN && (a.bits == b.bits || (a.isZero && b.isZero))

def roundShift (p k : Nat) : Nat :=
  let q := p / 2 ^ k
  let r := 2 * (p % 2 ^ k)
  if 2 ^ k < r ∨ (r = 2 ^ k ∧ q % 2 = 1) then q + 1 else q

/-- `size_t(double(core_len) * ratio)`: the product rounded to 53 bits, its fraction dropped; 0 for a ratio that is not
finite, which has none. -/
def budget (r : BudgetRatio) (coreLen : Nat) : Nat :=
  if !r.isFinite then 0
  else
    let p := coreLen * (if r.exponent = 0 then r.fraction else r.fraction + 2 ^ 52)
    let k := Nat.log2 p - 52
    roundShift p k * 2 ^ (k + max r.exponent 1) / 2 ^ 1075

end BudgetRatio

structure IndexOptions where
  chunkBytes : Nat := 32 * 1024
  chunkOverlap : Nat := 128
  positionalBlockBytes : Nat := 256
  positionalBudgetRatio : BudgetRatio := {}
  plannedQgrams : Nat := 4
  includeHidden : Bool := true
  followSymlinks : Bool := false
  persistCorpus : Bool := false
  deriving DecidableEq, Repr

structure FileInfo where
  path : Bytes
  size : Nat
  mtimeNs : Int64 := 0
  binary : Bool
  deriving DecidableEq, Repr

structure Chunk where
  fileId : Nat
  coreBegin : Nat
  coreEnd : Nat
  extEnd : Nat
  deriving DecidableEq, Repr

structure Group where
  lg : Nat
  m : Nat
  words : Nat
  gids : List Nat := []
  bits : List Nat
  deriving DecidableEq, Repr

structure PosDesc where
  off : Nat
  m : Nat
  maskBytes : Nat
  blocks : Nat
  deriving DecidableEq, Repr

structure QgramStats where
  occurrenceFrequency : Nat := 0
  chunkFrequency : Nat := 0
  documentFrequency : Nat := 0
  chunkIds : List Nat := []
  documentIds : List Nat := []
  deriving DecidableEq, Repr

/-- `std::map<uint32_t, QgramStats>`, its entries in the order they were made. -/
abbrev QgramTable := List (UInt32 × QgramStats)

def QgramTable.update (t : QgramTable) (key : UInt32) (f : QgramStats → QgramStats) : QgramTable :=
  t.map (fun e => if e.1 = key then (e.1, f e.2) else e)

structure IndexData where
  exactQgrams : QgramTable := []
  hashChunkIds : Nat → List Nat := fun _ => []
  hashChunkFreq : Nat → Nat := fun _ => 0
  plannerStatsReady : Bool := false
  root : Bytes := []
  rootMtimeNs : Int64 := 0
  opt : IndexOptions
  infos : List FileInfo := []
  loaded : List Bytes := []
  chunks : List Chunk := []
  groups : List Group := []
  posDesc : List PosDesc := []
  pos : List Nat := []
  byteFreq : UInt8 → Nat := fun _ => 0
  qgramFreq : Nat → Nat := fun _ => 0
  corpBytes : Nat := 0
  posBlock : Nat := 256
  ephemeral : Bool := false
  segmentCount : Nat := 0
  appendedBytes : Nat := 0

def IndexData.data (I : IndexData) (fid : Nat) : Bytes := I.loaded.getD fid []

/-- `substr(begin, end - begin)` -/
def slice (s : Bytes) (b e : Nat) : Bytes := (s.take e).drop b

def IndexData.view (I : IndexData) (z : Chunk) : Bytes := slice (I.data z.fileId) z.coreBegin z.extEnd

end Pergrep
