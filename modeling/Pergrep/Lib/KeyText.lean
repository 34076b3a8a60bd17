import Pergrep.Lib.Substr
import Mathlib.Data.List.Infix
import Mathlib.Data.List.Nodup
import Mathlib.Data.List.TakeWhile
import Mathlib.Data.UInt
/-!
# KeyText — values found by the text of their keys

A writer puts down items, `"key": value` or `"key": "value"` with what stands around them, and escapes nothing; a reader looks
for the first place of `"key": ` and takes what follows.  While the values written before are without quotation marks the
first place is the item's own (`after_render`), so values come back exactly when none has one (`extractStr_of_clean`,
`clean_of_extractStr`).
-/
namespace KeyText

open Substr (findFrom findFrom_cons)

def pattern (key rest : List UInt8) : List UInt8 := 34 :: (key ++ 34 :: 58 :: 32 :: rest)

def after (p s : List UInt8) : Option (List UInt8) := (findFrom s p 0).map (fun pos => s.drop (pos + p.length))

/-- The text after `"key": "` up to the next quotation mark; empty when there is none. -/
def extractStr (text key : List UInt8) : List UInt8 :=
  match after (pattern key [34]) text with
  | none => []
  | some s => (findFrom s [34] 0).elim [] s.take

def extractRun (kind : UInt8 → Bool) (text key : List UInt8) : Option (List UInt8) :=
  (after (pattern key []) text).map (List.takeWhile kind)

/-- A key and its value in a text, and what stands before and after them. -/
structure Item where
  indent : List UInt8
  key : List UInt8
  quoted : Bool
  value : List UInt8
  tail : List UInt8

namespace Item

def body (i : Item) : List UInt8 := if i.quoted then 34 :: i.value ++ [34] else i.value

def text (i : Item) : List UInt8 := i.indent ++ 34 :: (i.key ++ 34 :: 58 :: 32 :: (i.body ++ i.tail))

def Clean (i : Item) : Prop := (34 : UInt8) ∉ i.value

end Item

def render (items : List Item) : List UInt8 := items.flatMap Item.text

/-- A key begins with none of the marks that follow a quotation mark. -/
structure IsKey (key : List UInt8) : Prop where
  ne_nil : key ≠ []
  quote : (34 : UInt8) ∉ key
  head : ∀ b ∈ key.head?, b ≠ 58 ∧ b ≠ 44 ∧ b ≠ 10

/-- What stands around a value has no quotation mark, and a value ends at a comma or a line; only quoted values may have
quotation marks. -/
structure Item.Formed (i : Item) : Prop where
  indent : (34 : UInt8) ∉ i.indent
  isKey : IsKey i.key
  stop : ∃ b t, i.tail = b :: t ∧ (34 : UInt8) ∉ t ∧ (b = 44 ∨ b = 10)
  plain : i.quoted = false → i.Clean

theorem Item.Formed.tail {i : Item} (hi : i.Formed) : (34 : UInt8) ∉ i.tail := by
  obtain ⟨b, t, htail, ht, hb⟩ := hi.stop
  rw [htail, List.mem_cons, not_or]
  refine ⟨?_, ht⟩
  rcases hb with rfl | rfl
  · decide
  · decide

def Item.framed (i : Item) : Bool :=
  i.indent.all (· ≠ 34) && (i.key.all (· ≠ 34) && i.key.head?.any (fun b => b ≠ 58 && b ≠ 44 && b ≠ 10)) &&
    (i.tail.head?.any (fun b => b = 44 || b = 10) && i.tail.all (· ≠ 34))

theorem Item.Formed.of_framed {i : Item} (h : i.framed = true) (hplain : i.quoted = false → i.Clean) : i.Formed := by
  have hquote : ∀ {l : List UInt8}, l.all (· ≠ 34) = true → (34 : UInt8) ∉ l :=
    fun hl hmem => of_decide_eq_true (List.all_eq_true.1 hl 34 hmem) rfl
  simp only [Item.framed, Bool.and_eq_true] at h
  obtain ⟨⟨hindent, hkey, hhead⟩, hmark, htail⟩ := h
  obtain ⟨b, hb, hstart⟩ := (Option.any_eq_true _ _).1 hhead
  obtain ⟨c, hc, hstop⟩ := (Option.any_eq_true _ _).1 hmark
  obtain ⟨t, ht⟩ := List.head?_eq_some_iff.1 hc
  simp only [Bool.and_eq_true, decide_eq_true_eq] at hstart
  simp only [Bool.or_eq_true, decide_eq_true_eq] at hstop
  refine ⟨hquote hindent, ⟨?_, hquote hkey, ?_⟩, ⟨c, t, ht, ?_, hstop⟩, hplain⟩
  · intro hnil
    rw [hnil] at hb
    cases hb
  · intro d hd
    rw [hb] at hd
    cases hd
    exact ⟨hstart.1.1, hstart.1.2, hstart.2⟩
  · exact fun hmem => hquote htail (ht ▸ List.mem_cons_of_mem c hmem)

/-! ## The first place -/

theorem after_cons {a : UInt8} {s p : List UInt8} (h : ¬ p <+: a :: s) : after p (a :: s) = after p s := by
  unfold after
  rw [findFrom_cons, if_neg h]
  cases findFrom s p 0 with
  | none => rfl
  | some pos =>
    rw [Option.map_some, Option.map_some, Option.map_some, show pos + 1 + p.length = pos + p.length + 1 by omega,
      List.drop_succ_cons]

theorem after_self (p s : List UInt8) : after p (p ++ s) = some s := by
  have hfind : findFrom (p ++ s) p 0 = some 0 := by
    rw [Substr.findFrom_eq_some]
    refine ⟨Nat.le_refl _, (Substr.occursAt_iff _ _ _).2 ⟨Nat.zero_le _, s, rfl⟩, fun y _ hy => absurd hy (Nat.not_lt_zero _)⟩
  unfold after
  rw [hfind, Option.map_some, Nat.zero_add, List.drop_left]

theorem after_skip {q : List UInt8} : ∀ {w : List UInt8} (s : List UInt8), (34 : UInt8) ∉ w →
    after (34 :: q) (w ++ s) = after (34 :: q) s
  | [], _, _ => rfl
  | a :: w, s, h => by
    rw [List.mem_cons, not_or] at h
    have hnot : ¬ (34 : UInt8) :: q <+: a :: (w ++ s) := fun hp => h.1 (List.cons_prefix_cons.1 hp).1
    rw [List.cons_append, after_cons hnot, after_skip s h.2]

theorem after_quote {q s : List UInt8} (h : ¬ q <+: s) : after (34 :: q) (34 :: s) = after (34 :: q) s :=
  after_cons (fun hp => h (List.cons_prefix_cons.1 hp).2)

theorem eq_of_quoted : ∀ {k k' x y : List UInt8}, (34 : UInt8) ∉ k → (34 : UInt8) ∉ k' →
    k ++ 34 :: x <+: k' ++ 34 :: y → k = k' ∧ x <+: y
  | [], [], _, _, _, _, h => ⟨rfl, (List.cons_prefix_cons.1 h).2⟩
  | [], b :: k', _, _, _, hk', h => absurd ((List.cons_prefix_cons.1 h).1 ▸ List.mem_cons_self) hk'
  | a :: k, [], _, _, hk, _, h => absurd ((List.cons_prefix_cons.1 h).1 ▸ List.mem_cons_self) hk
  | a :: k, b :: k', x, y, hk, hk', h => by
    obtain ⟨hab, hrest⟩ := List.cons_prefix_cons.1 h
    obtain ⟨hkk, hxy⟩ := eq_of_quoted (fun hm => hk (List.mem_cons_of_mem a hm)) (fun hm => hk' (List.mem_cons_of_mem b hm)) hrest
    exact ⟨by rw [hab, hkk], hxy⟩

theorem not_key_start {k x s : List UInt8} {b : UInt8} (hk : IsKey k) (hb : b = 58 ∨ b = 44 ∨ b = 10) :
    ¬ k ++ x <+: b :: s := by
  intro h
  obtain ⟨a, k', rfl⟩ := List.exists_cons_of_ne_nil hk.ne_nil
  have hab : a = b := (List.cons_prefix_cons.1 h).1
  obtain ⟨h1, h2, h3⟩ := hk.head a rfl
  rcases hb with hb | hb | hb
  · exact h1 (hab.trans hb)
  · exact h2 (hab.trans hb)
  · exact h3 (hab.trans hb)

variable {k r : List UInt8}

theorem after_body (hk : IsKey k) {i : Item} (hi : i.Formed) (hclean : i.Clean) (s : List UInt8) :
    after (pattern k r) (i.body ++ i.tail ++ s) = after (pattern k r) s := by
  unfold Item.body pattern
  cases hq : i.quoted with
  | false =>
    rw [if_neg (by decide), List.append_assoc, after_skip _ hclean, after_skip _ hi.tail]
  | true =>
    obtain ⟨b, t, htail, ht, hb⟩ := hi.stop
    have hmark : b = 58 ∨ b = 44 ∨ b = 10 := Or.inr hb
    have hopen : ¬ k ++ 34 :: 58 :: 32 :: r <+: i.value ++ 34 :: b :: (t ++ s) := by
      intro h
      obtain ⟨-, hrest⟩ := eq_of_quoted hk.quote hclean h
      have hbt : 58 = b := (List.cons_prefix_cons.1 hrest).1
      rcases hb with rfl | rfl
      · exact absurd hbt (by decide)
      · exact absurd hbt (by decide)
    have hskip := after_skip (q := k ++ 34 :: 58 :: 32 :: r) s hi.tail
    have htext : 34 :: i.value ++ [34] ++ (b :: t) ++ s = 34 :: (i.value ++ 34 :: b :: (t ++ s)) := by simp
    rw [htail, List.cons_append] at hskip
    rw [if_pos rfl, htail, htext, after_quote hopen, after_skip _ hclean, after_quote (not_key_start hk hmark), hskip]

/-- **An item of another key is passed over**, while its value is without quotation marks. -/
theorem after_item (hk : IsKey k) {i : Item} (hi : i.Formed) (hclean : i.Clean) (hne : k ≠ i.key) (s : List UInt8) :
    after (pattern k r) (i.text ++ s) = after (pattern k r) s := by
  have hkey : ¬ k ++ 34 :: 58 :: 32 :: r <+: i.key ++ 34 :: 58 :: 32 :: (i.body ++ i.tail ++ s) :=
    fun h => hne (eq_of_quoted hk.quote hi.isKey.quote h).1
  have htext : i.text ++ s = i.indent ++ 34 :: (i.key ++ 34 :: 58 :: 32 :: (i.body ++ i.tail ++ s)) := by
    unfold Item.text
    simp
  have hbody := after_body (r := r) hk hi hclean s
  unfold pattern at hbody ⊢
  rw [htext, after_skip _ hi.indent, after_quote hkey, after_skip _ hi.isKey.quote, after_quote (not_key_start hk (Or.inl rfl)),
    ← hbody]
  exact after_skip (w := [58, 32]) _ (by decide)

/-- **An item is found by its key**, if its value begins as it is looked for. -/
theorem after_own {i : Item} (hi : i.Formed) {s u : List UInt8} (hr : i.body ++ i.tail ++ s = r ++ u) :
    after (pattern i.key r) (i.text ++ s) = some u := by
  have htext : i.text ++ s = i.indent ++ (pattern i.key r ++ u) := by
    unfold Item.text pattern
    simp only [List.append_assoc, List.cons_append] at hr ⊢
    rw [hr]
  have hself := after_self (pattern i.key r) u
  rw [htext]
  unfold pattern at hself ⊢
  rw [after_skip _ hi.indent, hself]

/-- **An item of the key is passed over** as well, when its value begins otherwise. -/
theorem after_other {i : Item} (hi : i.Formed) (hclean : i.Clean) {s : List UInt8} (hr : ¬ r <+: i.body ++ i.tail ++ s) :
    after (pattern i.key r) (i.text ++ s) = after (pattern i.key r) s := by
  have hkey : ¬ i.key ++ 34 :: 58 :: 32 :: r <+: i.key ++ 34 :: 58 :: 32 :: (i.body ++ i.tail ++ s) := by
    intro h
    have hrest := (eq_of_quoted hi.isKey.quote hi.isKey.quote h).2
    exact hr (List.cons_prefix_cons.1 (List.cons_prefix_cons.1 hrest).2).2
  have htext : i.text ++ s = i.indent ++ 34 :: (i.key ++ 34 :: 58 :: 32 :: (i.body ++ i.tail ++ s)) := by
    unfold Item.text
    simp
  have hbody := after_body (r := r) hi.isKey hi hclean s
  unfold pattern at hbody ⊢
  rw [htext, after_skip _ hi.indent, after_quote hkey, after_skip _ hi.isKey.quote,
    after_quote (not_key_start hi.isKey (Or.inl rfl)), ← hbody]
  exact after_skip (w := [58, 32]) _ (by decide)

/-- **Items of other keys are passed over**, one after another. -/
theorem after_render (hk : IsKey k) : ∀ {items : List Item} (s : List UInt8),
    (∀ i ∈ items, i.Formed ∧ i.Clean ∧ k ≠ i.key) → after (pattern k r) (render items ++ s) = after (pattern k r) s
  | [], _, _ => rfl
  | i :: items, s, h => by
    obtain ⟨hi, hclean, hne⟩ := h i List.mem_cons_self
    rw [render, List.flatMap_cons, List.append_assoc, after_item hk hi hclean hne]
    exact after_render hk s (fun j hj => h j (List.mem_cons_of_mem i hj))

/-! ## Reading -/

theorem extractStr_of_after {text key u : List UInt8} (h : after (pattern key [34]) text = some u) (hquote : (34 : UInt8) ∈ u) :
    extractStr text key = u.takeWhile (· ≠ 34) := by
  have hfind : findFrom u [34] 0 = some (u.takeWhile (· ≠ 34)).length := by
    rw [Substr.findFrom_singleton (Nat.zero_le _) (by rwa [List.drop_zero]), List.drop_zero, Nat.zero_add]
  unfold extractStr
  rw [h]
  simp only [hfind, Option.elim_some]
  exact (List.prefix_iff_eq_take.1 (List.takeWhile_prefix _)).symm

theorem takeWhile_quote : ∀ (v t : List UInt8), (v ++ 34 :: t).takeWhile (· ≠ 34) = v.takeWhile (· ≠ 34)
  | [], _ => rfl
  | b :: v, t => by
    rw [List.cons_append, List.takeWhile_cons, List.takeWhile_cons, takeWhile_quote v t]

theorem takeWhile_quote_eq_self_iff {v : List UInt8} : v.takeWhile (· ≠ 34) = v ↔ (34 : UInt8) ∉ v := by
  rw [List.takeWhile_eq_self_iff]
  constructor
  · exact fun h hmem => absurd (h 34 hmem) (by decide)
  · intro h b hb
    rw [decide_eq_true_iff]
    rintro rfl
    exact h hb

/-- What stands in a text, apart from what follows: items of different keys. -/
structure Formed (items : List Item) : Prop where
  item : ∀ i ∈ items, i.Formed
  nodup : (items.map Item.key).Nodup

section Reading

variable {head : List UInt8} {pre post items : List Item} {i : Item} {s : List UInt8}

theorem after_found {u : List UInt8} (hhead : (34 : UInt8) ∉ head) (hform : Formed (pre ++ i :: post)) (hclean : ∀ j ∈ pre, j.Clean)
    (hr : i.body ++ i.tail ++ (render post ++ s) = r ++ u) :
    after (pattern i.key r) (head ++ render (pre ++ i :: post) ++ s) = some u := by
  have hi : i.Formed := hform.item i (List.mem_append_right _ List.mem_cons_self)
  have hbefore : ∀ j ∈ pre, j.Formed ∧ j.Clean ∧ i.key ≠ j.key := by
    intro j hj
    refine ⟨hform.item j (List.mem_append_left _ hj), hclean j hj, ?_⟩
    have hnodup := hform.nodup
    rw [List.map_append, List.map_cons] at hnodup
    exact fun heq => List.disjoint_of_nodup_append hnodup (List.mem_map_of_mem hj) (heq ▸ List.mem_cons_self)
  have htext : head ++ render (pre ++ i :: post) ++ s = head ++ (render pre ++ (i.text ++ (render post ++ s))) := by
    simp [render]
  have hskip : after (pattern i.key r) (head ++ (render pre ++ (i.text ++ (render post ++ s)))) =
      after (pattern i.key r) (render pre ++ (i.text ++ (render post ++ s))) := after_skip _ hhead
  rw [htext, hskip, after_render hi.isKey _ hbefore, after_own hi hr]

theorem extractStr_found (hhead : (34 : UInt8) ∉ head) (hform : Formed (pre ++ i :: post)) (hclean : ∀ j ∈ pre, j.Clean)
    (hq : i.quoted = true) :
    extractStr (head ++ render (pre ++ i :: post) ++ s) i.key = i.value.takeWhile (· ≠ 34) := by
  have hbody : i.body ++ i.tail ++ (render post ++ s) = [34] ++ (i.value ++ 34 :: (i.tail ++ (render post ++ s))) := by
    unfold Item.body
    rw [if_pos hq]
    simp
  rw [extractStr_of_after (after_found hhead hform hclean hbody) (by simp), takeWhile_quote]

theorem extractRun_found {kind : UInt8 → Bool} (hhead : (34 : UInt8) ∉ head) (hform : Formed (pre ++ i :: post))
    (hclean : ∀ j ∈ pre, j.Clean) (hq : i.quoted = false) (hvalue : ∀ b ∈ i.value, kind b = true)
    (hcomma : kind 44 = false) (hline : kind 10 = false) :
    extractRun kind (head ++ render (pre ++ i :: post) ++ s) i.key = some i.value := by
  have hi : i.Formed := hform.item i (List.mem_append_right _ List.mem_cons_self)
  obtain ⟨b, t, htail, -, hb⟩ := hi.stop
  have hbody : i.body ++ i.tail ++ (render post ++ s) = [] ++ (i.value ++ b :: (t ++ (render post ++ s))) := by
    unfold Item.body
    rw [hq, if_neg (by decide), htail]
    simp
  have hstop : ¬ kind b = true := by
    rcases hb with rfl | rfl
    · simp [hcomma]
    · simp [hline]
  unfold extractRun
  rw [after_found hhead hform hclean hbody, Option.map_some, List.takeWhile_append_of_pos hvalue, List.takeWhile_cons_of_neg hstop,
    List.append_nil]

/-- **Values without quotation marks are read back.** -/
theorem extractStr_of_clean (hhead : (34 : UInt8) ∉ head) (hform : Formed items) (hclean : ∀ j ∈ items, j.Clean) (hi : i ∈ items)
    (hq : i.quoted = true) : extractStr (head ++ render items ++ s) i.key = i.value := by
  obtain ⟨pre, post, rfl⟩ := List.append_of_mem hi
  rw [extractStr_found hhead hform (fun j hj => hclean j (List.mem_append_left _ hj)) hq]
  exact takeWhile_quote_eq_self_iff.2 (hclean i hi)

theorem extractRun_of_clean {kind : UInt8 → Bool} (hhead : (34 : UInt8) ∉ head) (hform : Formed items)
    (hclean : ∀ j ∈ items, j.Clean) (hi : i ∈ items) (hq : i.quoted = false) (hvalue : ∀ b ∈ i.value, kind b = true)
    (hcomma : kind 44 = false) (hline : kind 10 = false) :
    extractRun kind (head ++ render items ++ s) i.key = some i.value := by
  obtain ⟨pre, post, rfl⟩ := List.append_of_mem hi
  exact extractRun_found hhead hform (fun j hj => hclean j (List.mem_append_left _ hj)) hq hvalue hcomma hline

/-- **If every value is read back, none has a quotation mark**: the first that has one would be cut. -/
theorem clean_of_extractStr (hhead : (34 : UInt8) ∉ head) (hform : Formed items)
    (h : ∀ i ∈ items, i.Clean ∨ extractStr (head ++ render items ++ s) i.key = i.value) : ∀ i ∈ items, i.Clean := by
  -- the items before the one that is looked at are clean
  suffices hall : ∀ post pre, items = pre ++ post → (∀ i ∈ pre, i.Clean) → ∀ i ∈ post, i.Clean from
    hall items [] rfl (fun i hi => absurd hi List.not_mem_nil)
  intro post
  induction post with
  | nil => exact fun pre _ _ i hi => absurd hi List.not_mem_nil
  | cons i post ih =>
    rintro pre rfl hpre
    have hi : i ∈ pre ++ i :: post := List.mem_append_right _ List.mem_cons_self
    have hclean : i.Clean := by
      rcases h i hi with hclean | hread
      · exact hclean
      · cases hq : i.quoted with
        | false => exact (hform.item i hi).plain hq
        | true =>
          rw [extractStr_found hhead hform hpre hq] at hread
          exact takeWhile_quote_eq_self_iff.1 hread
    rw [List.forall_mem_cons]
    refine ⟨hclean, ih (pre ++ [i]) (by simp) ?_⟩
    rw [List.forall_mem_append, List.forall_mem_singleton]
    exact ⟨hpre, hclean⟩

end Reading

/-! ## Whether a pattern occurs

A value that a text is not looked up by may have quotation marks. -/

theorem isSome_after {p s : List UInt8} : (after p s).isSome = true ↔ p <:+: s := by
  unfold after
  rw [Option.isSome_map, Substr.findFrom_isSome_iff_infix]

theorem infix_skip_iff {w : List UInt8} (s : List UInt8) (hw : (34 : UInt8) ∉ w) : pattern k r <:+: w ++ s ↔ pattern k r <:+: s := by
  have hskip : after (pattern k r) (w ++ s) = after (pattern k r) s := after_skip s hw
  rw [← isSome_after, hskip, isSome_after]

theorem quote_split (hk : IsKey k) (hr : (34 : UInt8) ∉ r) {p q : List UInt8} (h : pattern k r = p ++ 34 :: q) :
    q = k ++ 34 :: 58 :: 32 :: r ∨ q = 58 :: 32 :: r := by
  unfold pattern at h
  cases p with
  | nil => exact Or.inl (List.cons.inj h).2.symm
  | cons a p =>
    obtain ⟨-, h⟩ := List.cons.inj h
    rcases List.append_eq_append_iff.1 h with ⟨u, rfl, hu⟩ | ⟨u, rfl, hu⟩
    · cases u with
      | nil => exact Or.inr (List.cons.inj hu).2.symm
      | cons c u =>
        obtain ⟨-, hrest⟩ := List.cons.inj hu
        have hmem : (34 : UInt8) ∈ (58 :: 32 :: r : List UInt8) := hrest ▸ List.mem_append_right _ List.mem_cons_self
        simp [hr] at hmem
    · cases u with
      | nil => exact Or.inr (List.cons.inj hu).2
      | cons c u =>
        obtain ⟨rfl, -⟩ := List.cons.inj hu
        exact absurd (List.mem_append_right _ List.mem_cons_self) hk.quote

/-- An occurrence ends before the quotation mark that closes a value, or begins after it. -/
theorem infix_value_iff (hk : IsKey k) (hr : (34 : UInt8) ∉ r) {v t : List UInt8} {b : UInt8} (hb : b = 44 ∨ b = 10) :
    pattern k r <:+: v ++ 34 :: b :: t ↔ pattern k r <:+: v ∨ pattern k r <:+: 34 :: b :: t := by
  rw [List.infix_append_iff]
  refine ⟨?_, fun h => h.imp_right Or.inl⟩
  rintro (h | h | ⟨l, l', hl, hv, ht⟩)
  · exact Or.inl h
  · exact Or.inr h
  · -- the part after the value begins with its quotation mark, and no pattern goes on as a closed value does
    cases l' with
    | nil => exact Or.inl (by rw [hl, List.append_nil]; exact hv.isInfix)
    | cons c q =>
      obtain ⟨rfl, hq⟩ := List.cons_prefix_cons.1 ht
      rcases quote_split hk hr hl with rfl | rfl
      · exact absurd hq (not_key_start hk (Or.inr hb))
      · have hcolon : 58 = b := (List.cons_prefix_cons.1 hq).1
        rcases hb with rfl | rfl
        · exact absurd hcolon (by decide)
        · exact absurd hcolon (by decide)

/-- **Whether a key occurs past an item of another key** is whether it does past the item or in its value. -/
theorem infix_item_iff (hk : IsKey k) (hr : (34 : UInt8) ∉ r) {i : Item} (hi : i.Formed) (hne : k ≠ i.key) (s : List UInt8) :
    pattern k r <:+: i.text ++ s ↔ (i.quoted = true ∧ pattern k r <:+: 34 :: i.value) ∨ pattern k r <:+: s := by
  cases hq : i.quoted with
  | false =>
    rw [← isSome_after, after_item hk hi (hi.plain hq) hne, isSome_after]
    simp
  | true =>
    obtain ⟨b, t, htail, ht, hb⟩ := hi.stop
    have hkey : ¬ k ++ 34 :: 58 :: 32 :: r <+: i.key ++ 34 :: 58 :: 32 :: (34 :: i.value ++ 34 :: b :: (t ++ s)) :=
      fun h => hne (eq_of_quoted hk.quote hi.isKey.quote h).1
    have htext : i.text ++ s = i.indent ++ 34 :: (i.key ++ 34 :: 58 :: 32 :: (34 :: i.value ++ 34 :: b :: (t ++ s))) := by
      unfold Item.text Item.body
      rw [if_pos hq, htail]
      simp
    have hopen : after (pattern k r) (i.text ++ s) = after (pattern k r) (34 :: i.value ++ 34 :: b :: (t ++ s)) := by
      unfold pattern
      rw [htext, after_skip _ hi.indent, after_quote hkey, after_skip _ hi.isKey.quote,
        after_quote (not_key_start hk (Or.inl rfl))]
      exact after_skip (w := [58, 32]) _ (by decide)
    have hclose : after (pattern k r) (34 :: b :: (t ++ s)) = after (pattern k r) s := by
      have hskip := after_skip (q := k ++ 34 :: 58 :: 32 :: r) s hi.tail
      rw [htail, List.cons_append] at hskip
      unfold pattern
      rw [after_quote (not_key_start hk (Or.inr hb)), hskip]
    rw [← isSome_after, hopen, isSome_after, infix_value_iff hk hr hb, ← isSome_after (s := 34 :: b :: (t ++ s)), hclose,
      isSome_after]
    simp

theorem infix_render_iff (hk : IsKey k) (hr : (34 : UInt8) ∉ r) : ∀ {items : List Item} (s : List UInt8),
    (∀ i ∈ items, i.Formed ∧ k ≠ i.key) →
    (pattern k r <:+: render items ++ s ↔ (∃ i ∈ items, i.quoted = true ∧ pattern k r <:+: 34 :: i.value) ∨ pattern k r <:+: s)
  | [], s, _ => by simp [render]
  | i :: items, s, h => by
    obtain ⟨hi, hne⟩ := h i List.mem_cons_self
    have ih := infix_render_iff hk hr s (fun j hj => h j (List.mem_cons_of_mem i hj))
    rw [render, List.flatMap_cons, List.append_assoc, infix_item_iff hk hr hi hne]
    rw [render] at ih
    rw [ih, ← or_assoc, List.exists_mem_cons_iff]

end KeyText
