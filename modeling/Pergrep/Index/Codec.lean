import Pergrep.Utf8
/-!
# Codec — the scalars of a snapshot, and its checksums

Every scalar is a fixed number of bytes, least significant first (`putLe`, `getLe`).
-/
namespace Pergrep

def putLe : Nat → Nat → Bytes
  | 0, _ => []
  | k + 1, x => UInt8.ofNat (x % 256) :: putLe k (x / 256)

def getLe : Bytes → Nat
  | [] => 0
  | b :: bs => b.toNat + 256 * getLe bs

@[simp] theorem length_putLe : ∀ (k x : Nat), (putLe k x).length = k
  | 0, _ => rfl
  | k + 1, x => by rw [putLe, List.length_cons, length_putLe k]

/-- **A number that fits is read back.** -/
theorem getLe_putLe : ∀ {k x : Nat}, x < 256 ^ k → getLe (putLe k x) = x
  | 0, x, h => by
    rw [Nat.pow_zero] at h
    rw [putLe, getLe]
    omega
  | k + 1, x, h => by
    have hx : x / 256 < 256 ^ k := by
      rw [Nat.pow_succ] at h
      omega
    have hb : (UInt8.ofNat (x % 256)).toNat = x % 256 := by
      rw [UInt8.toNat_ofNat']
      omega
    rw [putLe, getLe, getLe_putLe hx, hb]
    omega

def fnvMix (h : UInt64) (s : Bytes) : UInt64 := s.foldl (fun h c => (h ^^^ c.toUInt64) * 1099511628211) h

/-- `fnv_mix` of a number: its eight bytes, least significant first. -/
def fnvMixWord (h : UInt64) (v : Nat) : UInt64 := fnvMix h (putLe 8 v)

def bodyChecksum (body : Bytes) : UInt64 := fnvMix 14695981039346656037 (body.drop 12)

def trailer (body : Bytes) : Bytes := putLe 8 (bodyChecksum body).toNat

end Pergrep
