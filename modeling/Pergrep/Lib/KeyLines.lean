import Mathlib.Data.List.Basic
import Mathlib.Data.List.Infix
import Mathlib.Tactic.Common
/-!
# KeyLines — texts of `key=value` lines

`render` writes a line for each pair; `read` takes a text line by line, passes over empty lines, comments and lines without a
sign of equality, and gives each key with its value to a setter that may refuse it.  Nothing is escaped: what is written is
read back pair by pair as long as no value has a line break (`read_render`), and no value a setter is given has one
(`read_forall`).
-/
namespace KeyLines

/-- `std::getline`, until there is no more; a line break at the end starts no line. -/
def getLines : List UInt8 → List (List UInt8)
  | [] => []
  | b :: s =>
    if b = 10 then [] :: getLines s
    else
      match getLines s with
      | [] => [[b]]
      | l :: ls => (b :: l) :: ls

def cut (line : List UInt8) : Option (List UInt8 × List UInt8) :=
  (line.findIdx? (· == 61)).map (fun pos => (line.take pos, line.drop (pos + 1)))

/-- One line of the reader; `#` starts a comment. -/
def readLine {σ : Type*} (set : σ → List UInt8 → List UInt8 → Option σ) (x : σ) (line : List UInt8) : Option σ :=
  if line = [] ∨ line.head? = some 35 then some x
  else
    match cut line with
    | none => some x
    | some kv => set x kv.1 kv.2

def read {σ : Type*} (set : σ → List UInt8 → List UInt8 → Option σ) (text : List UInt8) (x : σ) : Option σ :=
  (getLines text).foldlM (readLine set) x

def line (kv : List UInt8 × List UInt8) : List UInt8 := kv.1 ++ 61 :: kv.2 ++ [10]

def render (kvs : List (List UInt8 × List UInt8)) : List UInt8 := kvs.flatMap line

/-- A key that is read as what it is. -/
structure IsKey (key : List UInt8) : Prop where
  ne_nil : key ≠ []
  comment : key.head? ≠ some 35
  equals : (61 : UInt8) ∉ key
  break_ : (10 : UInt8) ∉ key

/-! ## Lines -/

theorem notMem_of_mem_getLines : ∀ {s l : List UInt8}, l ∈ getLines s → (10 : UInt8) ∉ l
  | [], l, h => absurd h List.not_mem_nil
  | b :: s, l, h => by
    rw [getLines] at h
    split at h
    · rcases List.mem_cons.1 h with rfl | h
      · exact List.not_mem_nil
      · exact notMem_of_mem_getLines h
    · rename_i hb
      split at h
      · rw [List.mem_singleton.1 h, List.mem_singleton]
        exact Ne.symm hb
      · rename_i l' ls heq
        have ih : ∀ {l}, l ∈ l' :: ls → (10 : UInt8) ∉ l := fun hl => notMem_of_mem_getLines (heq ▸ hl)
        rcases List.mem_cons.1 h with rfl | h
        · rw [List.mem_cons, not_or]
          exact ⟨Ne.symm hb, ih List.mem_cons_self⟩
        · exact ih (List.mem_cons_of_mem l' h)

theorem getLines_append : ∀ {l : List UInt8} (s : List UInt8), (10 : UInt8) ∉ l →
    getLines (l ++ 10 :: s) = l :: getLines s
  | [], s, _ => by rw [List.nil_append, getLines, if_pos rfl]
  | b :: l, s, h => by
    rw [List.mem_cons, not_or] at h
    rw [List.cons_append, getLines, if_neg (Ne.symm h.1), getLines_append s h.2]

theorem cut_line {key value : List UInt8} (h : (61 : UInt8) ∉ key) : cut (key ++ 61 :: value) = some (key, value) := by
  have hnone : key.findIdx? (· == 61) = none := List.findIdx?_eq_none_iff.2 (fun b hb => by
    rw [beq_eq_false_iff_ne]
    rintro rfl
    exact h hb)
  have hpos : (key ++ 61 :: value).findIdx? (· == 61) = some key.length := by
    rw [List.findIdx?_append, hnone, List.findIdx?_cons]
    simp
  unfold cut
  rw [hpos, Option.map_some, List.take_left, ← List.drop_drop, List.drop_left]
  rfl

/-! ## The reader -/

variable {σ : Type*} {set : σ → List UInt8 → List UInt8 → Option σ}

theorem readLine_line {key value : List UInt8} (hkey : IsKey key) (x : σ) :
    readLine set x (key ++ 61 :: value) = set x key value := by
  obtain ⟨b, k, rfl⟩ := List.exists_cons_of_ne_nil hkey.ne_nil
  unfold readLine
  rw [if_neg, cut_line hkey.equals]
  rintro (h | h)
  · cases h
  · exact hkey.comment h

/-- **What is written is read back** pair by pair, when no value has a line break. -/
theorem read_render : ∀ {kvs : List (List UInt8 × List UInt8)}, (∀ kv ∈ kvs, IsKey kv.1 ∧ (10 : UInt8) ∉ kv.2) → ∀ x : σ,
    read set (render kvs) x = kvs.foldlM (fun x kv => set x kv.1 kv.2) x
  | [], _, _ => rfl
  | kv :: kvs, h, x => by
    obtain ⟨hkey, hvalue⟩ := h kv List.mem_cons_self
    have hline : (10 : UInt8) ∉ kv.1 ++ 61 :: kv.2 := by
      rw [List.mem_append, List.mem_cons, not_or, not_or]
      exact ⟨hkey.break_, by decide, hvalue⟩
    have htext : render (kv :: kvs) = (kv.1 ++ 61 :: kv.2) ++ 10 :: render kvs := by
      rw [render, List.flatMap_cons, line, List.append_assoc, List.singleton_append]
      rfl
    unfold read
    rw [htext, getLines_append _ hline, List.foldlM_cons, List.foldlM_cons, readLine_line hkey]
    refine bind_congr (fun y => ?_)
    exact read_render (fun kv hkv => h kv (List.mem_cons_of_mem _ hkv)) y

/-- **What every setter keeps for values without line breaks** holds of whatever is read. -/
theorem read_forall {P : σ → Prop} (hset : ∀ x key value y, P x → (10 : UInt8) ∉ value → set x key value = some y → P y)
    {text : List UInt8} {x y : σ} (hx : P x) (h : read set text x = some y) : P y := by
  have hlines : ∀ {ls : List (List UInt8)} {x : σ}, (∀ l ∈ ls, (10 : UInt8) ∉ l) → P x →
      ls.foldlM (readLine set) x = some y → P y := by
    intro ls
    induction ls with
    | nil =>
      rintro x - hx h
      cases h
      exact hx
    | cons l ls ih =>
      intro x hls hx h
      rw [List.foldlM_cons] at h
      obtain ⟨z, hz, h⟩ := Option.bind_eq_some_iff.1 h
      refine ih (fun l hl => hls l (List.mem_cons_of_mem _ hl)) ?_ h
      unfold readLine at hz
      split at hz
      · cases hz
        exact hx
      · split at hz
        · cases hz
          exact hx
        · rename_i kv hcut
          obtain ⟨pos, -, rfl⟩ := Option.map_eq_some_iff.1 hcut
          exact hset x _ _ z hx (fun hmem => hls l List.mem_cons_self (List.mem_of_mem_drop hmem)) hz
  exact hlines (fun l hl => notMem_of_mem_getLines hl) hx h

end KeyLines
