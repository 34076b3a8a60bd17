import Pergrep.Index.Data
import Pergrep.Lib.Intervals
import Pergrep.Regex.Decompose
import Pergrep.Search.Regions
/-!
# Cover — the regions of a bounded pattern hold its matches

Each literal of a branch stands in a span of it between the least and the greatest distance `literalOffsets` gives
(`offsets_hold`), so the start of the span is among the starts that an occurrence of the literal allows
(`constraintInterval_covers`), for every literal of a joined branch at once, and regions are only made wider when they are
merged (`foldl_mergeRegion_sub`).
-/
namespace Pergrep

open Intervals (Rising Covers)
open Steps (iterSpan iterSpan_le iterSpan_bounds)
open Substr (occursAt occursAt_le)

/-! ## Distances -/

/-- The constrained literal stands in the span at a distance that the constraint allows. -/
def LiteralOffsetConstraint.Holds (data : Bytes) (k : LiteralOffsetConstraint) (s e : Nat) : Prop :=
  ∃ x, k.minStart ≤ x ∧ x ≤ k.maxStart ∧ s + x + k.literal.length ≤ e ∧ occursAt data k.literal (s + x) = true

/-- A summary is right about a span. -/
structure LiteralOffsetSummary.Holds (data : Bytes) (o : LiteralOffsetSummary) (s e : Nat) : Prop where
  lower : o.minWidth ≤ e - s
  upper : e - s ≤ o.maxWidth
  literals : ∀ k ∈ o.literals, k.Holds data s e

section
variable {data : Bytes}

theorem literalOffsetsConcat_finite : ∀ {cs : List RegexNode} {o : LiteralOffsetSummary},
    (literalOffsetsConcat cs o).finite = true → o.finite = true ∧ ∀ c ∈ cs, (literalOffsets c).finite = true
  | [], _, h => ⟨h, fun _ hc => by cases hc⟩
  | c :: cs, o, h => by
    rw [literalOffsetsConcat] at h
    obtain ⟨h1, h2⟩ := literalOffsetsConcat_finite h
    rw [Bool.and_eq_true] at h1
    exact ⟨h1.1, List.forall_mem_cons.2 ⟨h1.2, h2⟩⟩

/-- **The loop over a concatenation**: what was so of the span so far is so of the whole. -/
theorem literalOffsetsConcat_holds {cs : List RegexNode}
    (ih : ∀ c ∈ cs, ∀ s e, e ≤ sizeMax → Decomposes data c s e → (literalOffsets c).finite = true →
      (literalOffsets c).Holds data s e) :
    ∀ {o : LiteralOffsetSummary} {s₀ s e : Nat}, s₀ ≤ s → e ≤ sizeMax → o.Holds data s₀ s → DecomposesAll data cs s e →
      (literalOffsetsConcat cs o).finite = true → (literalOffsetsConcat cs o).Holds data s₀ e := by
  induction cs with
  | nil =>
    intro o s₀ s e _ _ ho h _
    obtain rfl : s = e := h
    exact ho
  | cons c cs ihs =>
    rintro o s₀ s e hs he ho ⟨m, h1, h2⟩ hfin
    obtain ⟨-, hparts⟩ := literalOffsetsConcat_finite hfin
    have hm := Decomposes.le c h1
    have hme : m ≤ e := Decomposes.le (.concat {} cs) h2
    have hc := ih c List.mem_cons_self s m (hme.trans he) h1 (hparts c List.mem_cons_self)
    rw [literalOffsetsConcat] at hfin ⊢
    refine ihs (fun d hd => ih d (List.mem_cons_of_mem _ hd)) (hs.trans hm) he ?_ h2 hfin
    have hlo := ho.lower
    have hhi := ho.upper
    have hclo := hc.lower
    have hchi := hc.upper
    refine ⟨?_, ?_, fun k hk => ?_⟩
    · dsimp only [satAdd]
      omega
    · dsimp only [satAdd]
      omega
    · rcases List.mem_append.1 hk with hk | hk
      · obtain ⟨x, hx1, hx2, hx3, hx4⟩ := ho.literals k hk
        exact ⟨x, hx1, hx2, hx3.trans hm, hx4⟩
      · obtain ⟨l, hl, rfl⟩ := List.mem_map.1 hk
        obtain ⟨x, hx1, hx2, hx3, hx4⟩ := hc.literals l hl
        refine ⟨s - s₀ + x, ?_, ?_, ?_, ?_⟩
        · dsimp only [satAdd]
          omega
        · dsimp only [satAdd]
          omega
        · dsimp only
          omega
        · dsimp only
          rwa [show s₀ + (s - s₀ + x) = s + x by omega]

theorem literalOffsetsAlt_finite : ∀ {cs : List RegexNode} {o : Option LiteralOffsetSummary},
    (literalOffsetsAlt cs o).finite = true → (∀ p ∈ o, p.finite = true) ∧ ∀ c ∈ cs, (literalOffsets c).finite = true
  | [], none, _ => ⟨fun _ hp => (by cases hp), fun _ hc => (by cases hc)⟩
  | [], some o, h => ⟨fun p hp => (by cases hp; exact h), fun _ hc => (by cases hc)⟩
  | c :: cs, none, h => by
    rw [literalOffsetsAlt] at h
    obtain ⟨h1, h2⟩ := literalOffsetsAlt_finite h
    have hc := h1 _ rfl
    dsimp only at hc
    exact ⟨fun _ hp => (by cases hp), List.forall_mem_cons.2 ⟨hc, h2⟩⟩
  | c :: cs, some o, h => by
    rw [literalOffsetsAlt] at h
    obtain ⟨h1, h2⟩ := literalOffsetsAlt_finite h
    have hboth := h1 _ rfl
    rw [Bool.and_eq_true] at hboth
    exact ⟨fun p hp => (by cases hp; exact hboth.1), List.forall_mem_cons.2 ⟨hboth.2, h2⟩⟩

theorem literalOffsetsAlt_left {s e : Nat} : ∀ {cs : List RegexNode} {o : LiteralOffsetSummary}, o.Holds data s e →
    o.literals = [] → (literalOffsetsAlt cs (some o)).Holds data s e
  | [], _, h, _ => h
  | c :: cs, o, h, hl => by
    rw [literalOffsetsAlt]
    refine literalOffsetsAlt_left ⟨?_, ?_, fun k hk => by cases hk⟩ rfl
    · exact (Nat.min_le_left _ _).trans h.lower
    · exact h.upper.trans (Nat.le_max_left _ _)

theorem literalOffsetsAlt_right {s e : Nat} {c : RegexNode} (h : (literalOffsets c).Holds data s e) {cs : List RegexNode}
    (hc : c ∈ cs) (o : LiteralOffsetSummary) : (literalOffsetsAlt cs (some o)).Holds data s e := by
  induction cs generalizing o with
  | nil => cases hc
  | cons d cs ih =>
    rw [literalOffsetsAlt]
    rcases List.mem_cons.1 hc with rfl | hc
    · refine literalOffsetsAlt_left ⟨?_, ?_, fun k hk => by cases hk⟩ rfl
      · exact (Nat.min_le_right _ _).trans h.lower
      · exact h.upper.trans (Nat.le_max_right _ _)
    · exact ih hc _

/-- **The distances are right** about every span that decomposes along a tree of finite width. -/
theorem offsets_hold (n : RegexNode) : ∀ s e, e ≤ sizeMax → Decomposes data n s e → (literalOffsets n).finite = true →
    (literalOffsets n).Holds data s e := by
  induction n using RegexNode.recChildren with
  | empty f =>
    rintro s _ _ rfl _
    exact ⟨Nat.zero_le _, Nat.le_of_eq (Nat.sub_self s), fun k hk => by cases hk⟩
  | assert f k =>
    rintro s _ _ rfl _
    exact ⟨Nat.zero_le _, Nat.le_of_eq (Nat.sub_self s), fun k hk => by cases hk⟩
  | literal f l =>
    rintro s _ _ ⟨hocc, rfl⟩ _
    rw [literalOffsets]
    refine ⟨by dsimp only; omega, by dsimp only; omega, fun k hk => ?_⟩
    dsimp only at hk
    split at hk
    · obtain rfl := List.mem_singleton.1 hk
      exact ⟨0, Nat.le_refl _, Nat.le_refl _, Nat.le_refl _, hocc⟩
    · cases hk
  | dot f =>
    rintro s e _ ⟨h1, h2⟩ _
    exact ⟨by dsimp only [literalOffsets]; omega, by dsimp only [literalOffsets]; omega, fun k hk => by cases hk⟩
  | cls f k =>
    rintro s e _ ⟨h1, h2⟩ _
    exact ⟨by dsimp only [literalOffsets]; omega, by dsimp only [literalOffsets]; omega, fun k hk => by cases hk⟩
  | concat f cs ih =>
    intro s e he h hfin
    refine literalOffsetsConcat_holds ih (Nat.le_refl s) he ?_ h hfin
    exact ⟨Nat.zero_le _, Nat.le_of_eq (Nat.sub_self s), fun k hk => by cases hk⟩
  | alt f cs ih =>
    intro s e he h hfin
    obtain ⟨c, hc, h⟩ := decomposesAny_iff.1 h
    rw [literalOffsets] at hfin ⊢
    obtain ⟨-, hparts⟩ := literalOffsetsAlt_finite hfin
    have hpart := ih c hc s e he h (hparts c hc)
    cases cs with
    | nil => cases hc
    | cons d cs =>
      rw [literalOffsetsAlt]
      rcases List.mem_cons.1 hc with rfl | hc
      · exact literalOffsetsAlt_left ⟨hpart.lower, hpart.upper, fun k hk => by cases hk⟩ rfl
      · exact literalOffsetsAlt_right hpart hc _
  | repeat_ f mn mx g c ih =>
    rintro s e he ⟨k, hk1, hk2, h⟩ hfin
    rw [literalOffsets] at hfin ⊢
    dsimp only at hfin ⊢
    rw [Bool.and_eq_true, decide_eq_true_eq] at hfin
    have hmx := hk2.resolve_left hfin.2
    have hle : ∀ p q, Decomposes data c p q → p ≤ q := fun p q => Decomposes.le c
    have hpart := fun p q (hq : q ≤ e) hpq => ih p q (hq.trans he) hpq hfin.1
    obtain ⟨hlo, hhi⟩ := iterSpan_bounds hle (fun p q hq hpq => ⟨(hpart p q hq hpq).lower, (hpart p q hq hpq).upper⟩) h
    have hlower : (literalOffsets c).minWidth * mn ≤ e - s := by
      rw [Nat.mul_comm] at hlo
      exact (Nat.mul_le_mul_left _ hk1).trans hlo
    have hupper : e - s ≤ satMul (literalOffsets c).maxWidth mx := by
      rw [Nat.mul_comm] at hhi
      exact Nat.le_min.2 ⟨hhi.trans (Nat.mul_le_mul_left _ hmx), (Nat.sub_le e s).trans he⟩
    rw [if_neg hfin.2]
    refine ⟨(Nat.min_le_left _ _).trans hlower, hupper, fun l hl => ?_⟩
    split at hl
    · cases hl
    · rename_i hmn
      obtain ⟨lit, hlit, rfl⟩ := List.mem_map.1 hl
      cases k with
      | zero => omega
      | succ k =>
        obtain ⟨m, h1, h2⟩ := h
        have hme := iterSpan_le hle h2
        obtain ⟨x, -, -, hx3, hx4⟩ := (hpart s m hme h1).literals lit hlit
        refine ⟨x, Nat.zero_le _, ?_, hx3.trans hme, hx4⟩
        dsimp only
        omega
  | group f g nm c ih => exact ih
  | backRef f g => exact fun s e _ h _ => h.elim
  | lookAhead f neg c ih => exact fun s e _ h _ => h.elim
  | lookBehind f neg c ih => exact fun s e _ h _ => h.elim

end

/-! ## Occurrences -/

theorem occurrences_ge {record l : Bytes} : ∀ {fuel pos i : Nat}, i ∈ occurrences record l fuel pos → pos ≤ i
  | 0, _, _, h => by cases h
  | fuel + 1, pos, i, h => by
    rw [occurrences] at h
    split at h
    · cases h
    · rename_i j hj
      have hpos := (Substr.findFrom_eq_some.1 hj).1
      rcases List.mem_cons.1 h with rfl | h
      · exact hpos
      · split at h
        · cases h
        · have := occurrences_ge h
          omega

theorem occurrences_sorted (record l : Bytes) : ∀ fuel pos : Nat, (occurrences record l fuel pos).Pairwise (· < ·)
  | 0, _ => List.Pairwise.nil
  | fuel + 1, pos => by
    rw [occurrences]
    split
    · exact List.Pairwise.nil
    · rename_i j hj
      refine List.pairwise_cons.2 ⟨fun i hi => ?_, ?_⟩
      · split at hi
        · cases hi
        · exact occurrences_ge hi
      · split
        · exact List.Pairwise.nil
        · exact occurrences_sorted record l fuel (j + 1)

/-- **No occurrence is left out.** -/
theorem mem_occurrences {record l : Bytes} {i : Nat} (hi : occursAt record l i = true) : ∀ {fuel pos : Nat}, pos ≤ i →
    record.length < pos + fuel → i ∈ occurrences record l fuel pos
  | 0, pos, hpos, hfuel => by
    have := occursAt_le hi
    omega
  | fuel + 1, pos, hpos, hfuel => by
    have hlen := occursAt_le hi
    rw [occurrences]
    split
    · rename_i hnone
      rw [Substr.findFrom_eq_none.1 hnone i hpos] at hi
      cases hi
    · rename_i j hj
      obtain ⟨hj1, -, hj3⟩ := Substr.findFrom_eq_some.1 hj
      rcases Nat.lt_trichotomy i j with hlt | rfl | hlt
      · rw [hj3 i hpos hlt] at hi
        cases hi
      · exact List.mem_cons_self
      · refine List.mem_cons_of_mem _ ?_
        rw [if_neg (by omega)]
        exact mem_occurrences hi hlt (by omega)

/-! ## Merging -/

/-- A region that has the candidates of another and reaches as far. -/
structure BoundedRegexRegion.Sub (r r' : BoundedRegexRegion) : Prop where
  first : r'.candidateBegin ≤ r.candidateBegin
  last : r.candidateEnd ≤ r'.candidateEnd
  reach : r.regionEnd ≤ r'.regionEnd

theorem BoundedRegexRegion.Sub.refl (r : BoundedRegexRegion) : r.Sub r := ⟨Nat.le_refl _, Nat.le_refl _, Nat.le_refl _⟩

theorem BoundedRegexRegion.Sub.trans {r r' r'' : BoundedRegexRegion} (h : r.Sub r') (h' : r'.Sub r'') : r.Sub r'' :=
  ⟨h'.first.trans h.first, h.last.trans h'.last, h.reach.trans h'.reach⟩

/-- The regions come in the order of their first candidates. -/
def FirstFirst (regions : List BoundedRegexRegion) : Prop :=
  regions.Pairwise (fun r r' => r.candidateBegin ≤ r'.candidateBegin)

/-- **A merge only widens**, and the last region still starts where it did or at the new one. -/
theorem mergeRegion_sub {acc : List BoundedRegexRegion} {next : BoundedRegexRegion}
    (hlast : ∀ cur ∈ acc.getLast?, cur.candidateBegin ≤ next.candidateBegin) :
    (∀ r, r ∈ acc ∨ r = next → ∃ r' ∈ mergeRegion acc next, r.Sub r') ∧
      ∀ cur ∈ (mergeRegion acc next).getLast?, cur.candidateBegin ≤ next.candidateBegin := by
  have happend : (∀ r, r ∈ acc ∨ r = next → ∃ r' ∈ acc ++ [next], r.Sub r') ∧
      ∀ cur ∈ (acc ++ [next]).getLast?, cur.candidateBegin ≤ next.candidateBegin := by
    refine ⟨fun r hr => ⟨r, ?_, .refl r⟩, fun cur hcur => ?_⟩
    · exact List.mem_append.2 (hr.imp_right List.mem_singleton.2)
    · rw [List.getLast?_append] at hcur
      cases hcur
      exact Nat.le_refl _
  unfold mergeRegion
  split
  · rename_i cur hcur
    split
    · have hacc : acc = acc.dropLast ++ [cur] := (List.dropLast_append_getLast? cur hcur).symm
      have hbegin := hlast cur hcur
      refine ⟨fun r hr => ?_, fun last hl => ?_⟩
      · rcases hr with hr | rfl
        · rw [hacc] at hr
          rcases List.mem_append.1 hr with hr | hr
          · exact ⟨r, List.mem_append_left _ hr, .refl r⟩
          · rw [List.mem_singleton.1 hr]
            exact ⟨_, List.mem_append_right _ (List.mem_singleton_self _),
              ⟨Nat.le_refl _, Nat.le_max_left _ _, Nat.le_max_left _ _⟩⟩
        · exact ⟨_, List.mem_append_right _ (List.mem_singleton_self _),
            ⟨hbegin, Nat.le_max_right _ _, Nat.le_max_right _ _⟩⟩
      · rw [List.getLast?_append] at hl
        cases hl
        exact hbegin
    · exact happend
  · exact happend

/-- **Merging loses no candidate.** -/
theorem foldl_mergeRegion_sub : ∀ {regions acc : List BoundedRegexRegion}, FirstFirst regions →
    (∀ r ∈ regions, ∀ cur ∈ acc.getLast?, cur.candidateBegin ≤ r.candidateBegin) →
      ∀ r, r ∈ acc ∨ r ∈ regions → ∃ r' ∈ regions.foldl mergeRegion acc, r.Sub r'
  | [], _, _, _, r, hr => ⟨r, hr.resolve_right (fun h => by cases h), .refl r⟩
  | next :: regions, acc, hsorted, hlast, r, hr => by
    obtain ⟨hsub, hlast'⟩ := mergeRegion_sub (hlast next List.mem_cons_self)
    have hrest := @foldl_mergeRegion_sub regions (mergeRegion acc next) hsorted.tail
      (fun q hq cur hcur => (hlast' cur hcur).trans (List.rel_of_pairwise_cons hsorted hq))
    rw [List.foldl_cons]
    rcases hr with hr | hr
    · obtain ⟨r', hr', h1⟩ := hsub r (Or.inl hr)
      obtain ⟨r'', hr'', h2⟩ := hrest r' (Or.inl hr')
      exact ⟨r'', hr'', h1.trans h2⟩
    · rcases List.mem_cons.1 hr with rfl | hr
      · obtain ⟨r', hr', h1⟩ := hsub r (Or.inr rfl)
        obtain ⟨r'', hr'', h2⟩ := hrest r' (Or.inl hr')
        exact ⟨r'', hr'', h1.trans h2⟩
      · exact hrest r (Or.inr hr)

/-- The span starts at a candidate of the region and ends in it. -/
structure BoundedRegexRegion.HoldsSpan (r : BoundedRegexRegion) (s e : Nat) : Prop where
  first : r.candidateBegin ≤ s
  last : s < r.candidateEnd
  reach : e ≤ r.regionEnd

theorem BoundedRegexRegion.HoldsSpan.sub {r r' : BoundedRegexRegion} {s e : Nat} (h : r.HoldsSpan s e) (hs : r.Sub r') :
    r'.HoldsSpan s e :=
  ⟨hs.first.trans h.first, Nat.lt_of_lt_of_le h.last hs.last, h.reach.trans hs.reach⟩

theorem regions_sorted (regions : List BoundedRegexRegion) : FirstFirst (regions.insertionSort
    (fun x y => if x.candidateBegin ≠ y.candidateBegin then x.candidateBegin < y.candidateBegin
      else x.candidateEnd ≤ y.candidateEnd)) := by
  let R : BoundedRegexRegion → BoundedRegexRegion → Prop := fun x y =>
    if x.candidateBegin ≠ y.candidateBegin then x.candidateBegin < y.candidateBegin else x.candidateEnd ≤ y.candidateEnd
  have htotal : Std.Total R := ⟨fun x y => by dsimp only [R]; split_ifs <;> omega⟩
  have htrans : IsTrans _ R := ⟨fun x y z hxy hyz => by dsimp only [R] at *; split_ifs at * <;> omega⟩
  refine (List.pairwise_insertionSort R regions).imp (fun {x y} h => ?_)
  dsimp only [R] at h
  split_ifs at h <;> omega

theorem merged_holds {regions : List BoundedRegexRegion} (hsorted : FirstFirst regions) {r : BoundedRegexRegion}
    (hr : r ∈ regions) {s e : Nat} (h : r.HoldsSpan s e) : ∃ r' ∈ regions.foldl mergeRegion [], r'.HoldsSpan s e := by
  obtain ⟨r', hr', hsub⟩ := @foldl_mergeRegion_sub regions [] hsorted (fun _ _ _ hcur => by cases hcur) r (Or.inr hr)
  exact ⟨r', hr', h.sub hsub⟩

/-! ## Around one literal -/

section
variable {data : Bytes} {recordBegin recordEnd s e : Nat} (hb : recordBegin ≤ s) (he : e ≤ recordEnd)
  (hdata : recordEnd ≤ data.length)
include hb he hdata

theorem occursAt_record {l : Bytes} {x : Nat} (hs : s ≤ x) (hx : x + l.length ≤ e) (h : occursAt data l x = true) :
    occursAt (slice data recordBegin recordEnd) l (x - recordBegin) = true := by
  unfold slice
  rw [Substr.occursAt_drop _ _ _ _ (by rw [List.length_take]; omega), show recordBegin + (x - recordBegin) = x by omega,
    Substr.occursAt_take _ _ _ _ (by omega)]
  exact h

omit hdata in
/-- **The region around an occurrence in the span holds the span.** -/
theorem regionAround_holds {l : Bytes} {a : RegexAnalysis} {x : Nat} (hs : s ≤ x) (hx : x + l.length ≤ e) (hl : l ≠ [])
    (hwidth : e - s ≤ a.byteUpper.value) :
    ∃ r, regionAround recordBegin recordEnd l a (x - recordBegin) = some r ∧ r.HoldsSpan s e := by
  have hlen := List.length_pos_iff.2 hl
  have habs : recordBegin + (x - recordBegin) = x := by omega
  unfold regionAround
  dsimp only
  rw [habs, if_neg (show ¬ recordEnd < min (recordEnd + 1) (x + 1) by omega)]
  generalize a.byteUpper.value = width at hwidth ⊢
  generalize a.forwardLookaheadBytes.value = lookahead
  have hcb : (if width - l.length < x then max recordBegin (x - (width - l.length)) else recordBegin) ≤ s := by
    split
    · omega
    · exact hb
  have hce : s < min (recordEnd + 1) (x + 1) := by omega
  have hre : e ≤ if recordEnd - min (recordEnd + 1) (x + 1) < width + lookahead then recordEnd
      else min (recordEnd + 1) (x + 1) + (width + lookahead) := by
    split
    · exact he
    · omega
  rw [if_pos ⟨by omega, by omega⟩]
  exact ⟨_, rfl, hcb, hce, hre⟩

/-- **The regions around a literal of the span hold the span.** -/
theorem boundedRegexRegions_holds {l : Bytes} {a : RegexAnalysis} (hl : l ≠ []) (h : Holds data l s e)
    (hwidth : e - s ≤ a.byteUpper.value) :
    ∃ r ∈ boundedRegexRegions (slice data recordBegin recordEnd) recordBegin recordEnd l a, r.HoldsSpan s e := by
  obtain ⟨x, hs, hx, hocc⟩ := h
  have hin := occursAt_record hb he hdata hs hx hocc
  have hlen := List.length_pos_iff.2 hl
  obtain ⟨r, hr, hspan⟩ := regionAround_holds hb he hs hx hl hwidth
  unfold boundedRegexRegions
  rw [if_neg ?_]
  · refine merged_holds (List.pairwise_filterMap.2 ((occurrences_sorted _ _ _ _).imp (fun {i j} hij b hib b' hjb => ?_)))
      (List.mem_filterMap.2 ⟨_, mem_occurrences hin (Nat.zero_le _) (by omega), hr⟩) hspan
    -- a later occurrence has a later region
    obtain ⟨-, hib⟩ := Option.ite_none_right_eq_some.1 hib
    obtain ⟨-, hjb⟩ := Option.ite_none_right_eq_some.1 hjb
    cases hib
    cases hjb
    dsimp only
    split_ifs <;> omega
  · have hrecord := occursAt_le hin
    rintro (h | h | h)
    · exact hl (List.isEmpty_iff.1 h)
    · rw [List.isEmpty_iff.1 h] at hrecord
      dsimp only [List.length_nil] at hrecord
      omega
    · omega

/-! ## Where all literals stand -/

/-- **The starts an occurrence allows** have the start of the span. -/
theorem constraintInterval_covers (hmax : recordEnd ≤ sizeMax) {k : LiteralOffsetConstraint} (hk : k.literal ≠ [])
    (h : k.Holds data s e) :
    Covers ((occurrences (slice data recordBegin recordEnd) k.literal ((slice data recordBegin recordEnd).length + 1) 0).filterMap
      (constraintInterval recordBegin recordEnd k)) s := by
  obtain ⟨x, hx1, hx2, hx3, hocc⟩ := h
  have hin := occursAt_record hb he hdata (Nat.le_add_right s x) hx3 hocc
  have hlen := List.length_pos_iff.2 hk
  have habs : recordBegin + (s + x - recordBegin) = s + x := by omega
  have hlow : (if k.maxStart < s + x then max recordBegin (s + x - k.maxStart) else recordBegin) ≤ s := by
    split
    · omega
    · exact hb
  have hhigh : s < min (recordEnd + 1) (satAdd (s + x - k.minStart) 1) :=
    Nat.lt_min.2 ⟨by omega, Nat.lt_min.2 ⟨by omega, Nat.lt_of_lt_of_le (show s < recordEnd by omega) hmax⟩⟩
  have hinterval : constraintInterval recordBegin recordEnd k (s + x - recordBegin) =
      some (if k.maxStart < s + x then max recordBegin (s + x - k.maxStart) else recordBegin,
        min (recordEnd + 1) (satAdd (s + x - k.minStart) 1)) := by
    unfold constraintInterval
    dsimp only
    rw [habs, if_pos (by omega), if_pos (Nat.lt_of_le_of_lt hlow hhigh)]
  exact ⟨_, List.mem_filterMap.2 ⟨_, mem_occurrences hin (Nat.zero_le _) (by omega), hinterval⟩, hlow, hhigh⟩

omit hb he hdata in
theorem constraintInterval_rising (record : Bytes) (k : LiteralOffsetConstraint) (fuel : Nat) :
    Rising ((occurrences record k.literal fuel 0).filterMap (constraintInterval recordBegin recordEnd k)) := by
  refine List.pairwise_filterMap.2 ((occurrences_sorted _ _ _ _).imp (fun {i j} hij b hib b' hjb => ?_))
  obtain ⟨-, hib⟩ := Option.ite_none_right_eq_some.1 hib
  obtain ⟨-, hib⟩ := Option.ite_none_right_eq_some.1 hib
  obtain ⟨-, hjb⟩ := Option.ite_none_right_eq_some.1 hjb
  obtain ⟨-, hjb⟩ := Option.ite_none_right_eq_some.1 hjb
  cases hib
  cases hjb
  refine ⟨by dsimp only; split_ifs <;> omega, ?_⟩
  exact min_le_min (Nat.le_refl _) (min_le_min (by omega) (Nat.le_refl sizeMax))

omit hb he hdata in
theorem joinIntervals_eq : ∀ (fuel : Nat) (xs ys : List (Nat × Nat)), joinIntervals fuel xs ys = Intervals.common fuel xs ys
  | 0, _, _ => rfl
  | _ + 1, [], _ => rfl
  | _ + 1, _ :: _, [] => rfl
  | fuel + 1, x :: xs, y :: ys => by
    rw [joinIntervals, Intervals.common, joinIntervals_eq fuel xs (y :: ys), joinIntervals_eq fuel (x :: xs) ys]

/-- **The join keeps the start of the span.** -/
theorem joinConstraints_covers (hmax : recordEnd ≤ sizeMax) : ∀ {ks : List LiteralOffsetConstraint}
    {joined : Option (List (Nat × Nat))}, (∀ k ∈ ks, k.literal ≠ [] ∧ k.Holds data s e) →
    (∀ xs ∈ joined, Rising xs ∧ Covers xs s) → (ks ≠ [] ∨ joined.isSome = true) →
      ∃ xs, joinConstraints (slice data recordBegin recordEnd) recordBegin recordEnd ks joined = some xs ∧ Rising xs ∧
        Covers xs s
  | [], joined, _, hj, hne => by
    obtain ⟨xs, rfl⟩ := Option.isSome_iff_exists.1 (hne.resolve_left (fun h => h rfl))
    exact ⟨xs, rfl, hj xs rfl⟩
  | k :: ks, joined, hks, hj, _ => by
    obtain ⟨hk, hholds⟩ := hks k List.mem_cons_self
    have hcover := constraintInterval_covers hb he hdata hmax hk hholds
    have hrising := @constraintInterval_rising recordBegin recordEnd
      (slice data recordBegin recordEnd) k ((slice data recordBegin recordEnd).length + 1)
    rw [joinConstraints, if_neg (fun h => hk (List.isEmpty_iff.1 h))]
    dsimp only
    generalize (occurrences (slice data recordBegin recordEnd) k.literal ((slice data recordBegin recordEnd).length + 1)
      0).filterMap (constraintInterval recordBegin recordEnd k) = current at hcover hrising ⊢
    have hnonempty : ∀ {xs : List (Nat × Nat)}, Covers xs s → ¬ xs.isEmpty = true := by
      rintro xs ⟨x, hx, -⟩ h
      rw [List.isEmpty_iff.1 h] at hx
      cases hx
    rw [if_neg (hnonempty hcover)]
    cases joined with
    | none =>
      exact joinConstraints_covers hmax (fun q hq => hks q (List.mem_cons_of_mem _ hq))
        (fun xs hxs => by cases hxs; exact ⟨hrising, hcover⟩) (Or.inr rfl)
    | some xs =>
      obtain ⟨hxs1, hxs2⟩ := hj xs rfl
      have hnext := Intervals.covers_common (Nat.le_refl _) hxs1 hrising hxs2 hcover
      dsimp only
      rw [joinIntervals_eq, if_neg (hnonempty hnext)]
      exact joinConstraints_covers hmax (fun q hq => hks q (List.mem_cons_of_mem _ hq))
        (fun ys hys => by cases hys; exact ⟨hxs1.common hrising, hnext⟩) (Or.inr rfl)

/-- **The regions of a joined branch hold the span.** -/
theorem boundedRegexRegionsJoined_holds (hmax : recordEnd ≤ sizeMax) {ks : List LiteralOffsetConstraint} {a : RegexAnalysis}
    (hne : ks ≠ []) (hks : ∀ k ∈ ks, k.literal ≠ [] ∧ k.Holds data s e) (hwidth : e - s ≤ a.byteUpper.value) :
    ∃ r ∈ boundedRegexRegionsJoined (slice data recordBegin recordEnd) recordBegin recordEnd ks a, r.HoldsSpan s e := by
  obtain ⟨xs, hxs, hrising, x, hx, hx1, hx2⟩ := @joinConstraints_covers _ _ _ _ _ hb he hdata hmax ks none
    hks (fun ys hys => by cases hys) (Or.inl hne)
  have hse : s < e := by
    obtain ⟨k, hk⟩ := List.exists_mem_of_ne_nil ks hne
    obtain ⟨hlit, y, -, -, hy, -⟩ := hks k hk
    have := List.length_pos_iff.2 hlit
    omega
  have hrecord : ¬ (slice data recordBegin recordEnd).isEmpty = true := by
    intro h
    have hlen := congrArg List.length (List.isEmpty_iff.1 h)
    rw [slice, List.length_drop, List.length_take, List.length_nil] at hlen
    omega
  unfold boundedRegexRegionsJoined
  rw [if_neg (fun h => h.elim (fun h => hne (List.isEmpty_iff.1 h)) hrecord), hxs, Option.getD_some]
  have hreach : e ≤ min recordEnd (satAdd x.2 (satAdd a.byteUpper.value a.forwardLookaheadBytes.value)) := by
    unfold satAdd
    omega
  obtain ⟨r, hr, hspan⟩ : ∃ r, regionOf recordBegin recordEnd a x = some r ∧ r.HoldsSpan s e := by
    unfold regionOf
    dsimp only
    rw [if_pos ⟨by omega, by split_ifs <;> omega⟩]
    exact ⟨_, rfl, hx1, hx2, hreach⟩
  refine merged_holds (List.pairwise_filterMap.2 (hrising.imp (fun {y z} hyz b hyb b' hzb => ?_)))
    (List.mem_filterMap.2 ⟨x, hx, hr⟩) hspan
  obtain ⟨-, hyb⟩ := Option.ite_none_right_eq_some.1 hyb
  obtain ⟨-, hzb⟩ := Option.ite_none_right_eq_some.1 hzb
  cases hyb
  cases hzb
  exact hyz.1

end

/-! ## The branches `find` builds -/

def branchPairs (re : RegexProgram) : List (List Bytes × RegexNode) :=
  if splitBranches re then (branchLists re).zip (topLevelBranches re.ast)
  else [(re.queryIr.mandatory, (topLevelBranches re.ast).headD re.ast)]

theorem boundedBranches_eq (re : RegexProgram) :
    boundedBranches re = (branchPairs re).filterMap (fun x => boundedBranch x.1 x.2) := by
  unfold boundedBranches branchPairs
  dsimp only
  split
  · rfl
  · rw [List.filterMap_cons, List.filterMap_nil]
    dsimp only
    generalize boundedBranch re.queryIr.mandatory ((topLevelBranches re.ast).headD re.ast) = o
    cases o with
    | none   => rfl
    | some b => rfl

/-- A branch is made of its required literals: the anchor is one of them, and the constraints are the tree's. -/
theorem boundedBranch_ok {required : List Bytes} {ast : RegexNode} {b : BoundedBranch}
    (h : boundedBranch required ast = some b) : b.anchor ∈ required ∧ (b.joined = true →
      b.constraints ≠ [] ∧ (literalOffsets ast).finite = true ∧
        ∀ k ∈ b.constraints, k ∈ (literalOffsets ast).literals ∧ k.literal ∈ required) := by
  have hanchor : ∀ {ls : List Bytes} {best : Bytes},
      ls.foldl (fun best l => if best.length < l.length then l else best) best ∈ best :: ls := fun {ls} => by
    induction ls with
    | nil => exact fun {best} => List.mem_singleton_self best
    | cons l ls ih =>
      intro best
      rw [List.foldl_cons]
      split
      · exact List.mem_cons_of_mem _ ih
      · exact (List.mem_cons.1 ih).elim (fun h => by rw [h]; exact List.mem_cons_self)
          (fun h => List.mem_cons_of_mem _ (List.mem_cons_of_mem _ h))
  have hassign : ∀ {ls : List Bytes} {free ks : List LiteralOffsetConstraint}, assignConstraints ls free = some ks →
      ks.length = ls.length ∧ ∀ k ∈ ks, k ∈ free ∧ k.literal ∈ ls := fun {ls} => by
    induction ls with
    | nil =>
      intro free ks h
      cases h
      exact ⟨rfl, fun k hk => by cases hk⟩
    | cons l ls ih =>
      intro free ks h
      rw [assignConstraints] at h
      split at h
      · cases h
      · rename_i k hk
        obtain ⟨ks', hks', rfl⟩ := Option.map_eq_some_iff.1 h
        obtain ⟨hlen, hmem⟩ := ih hks'
        refine ⟨by rw [List.length_cons, List.length_cons, hlen], List.forall_mem_cons.2 ⟨⟨List.mem_of_find?_eq_some hk, ?_⟩, ?_⟩⟩
        · have : k.literal = l := by simpa using List.find?_some hk
          rw [this]
          exact List.mem_cons_self
        · exact fun j hj => ⟨List.mem_of_mem_eraseP (hmem j hj).1, List.mem_cons_of_mem _ (hmem j hj).2⟩
  unfold boundedBranch at h
  dsimp only at h
  split at h
  · cases h
  rename_i hne
  have hin : longestLiteral required ∈ required := by
    refine (List.mem_cons.1 (@hanchor required [])).resolve_left (fun h0 => hne ?_)
    exact List.isEmpty_iff.2 h0
  split at h
  · rename_i hfin
    split at h
    · rename_i ks hks
      cases h
      obtain ⟨hlen, hmem⟩ := hassign hks
      refine ⟨hin, fun _ => ⟨fun h0 => ?_, hfin.1, hmem⟩⟩
      have hzero : ks.length = 0 := congrArg List.length h0
      omega
    · cases h
      exact ⟨hin, fun hj => by cases hj⟩
  · cases h
    exact ⟨hin, fun hj => by cases hj⟩

def branchRegions (b : BoundedBranch) (a : RegexAnalysis) (record : Bytes) (recordBegin recordEnd : Nat) :
    List BoundedRegexRegion :=
  if b.joined then boundedRegexRegionsJoined record recordBegin recordEnd b.constraints a
  else boundedRegexRegions record recordBegin recordEnd b.anchor a

/-- **The regions of a branch hold every span of its tree**, when all its literals are mandatory in it. -/
theorem branchRegions_holds {data : Bytes} {recordBegin recordEnd s e : Nat} (hb : recordBegin ≤ s) (he : e ≤ recordEnd)
    (hdata : recordEnd ≤ data.length) (hmax : recordEnd ≤ sizeMax) {required : List Bytes} {ast : RegexNode}
    {b : BoundedBranch} (hbranch : boundedBranch required ast = some b)
    (hrequired : ∀ l ∈ required, l ∈ queryMandatory ast) {a : RegexAnalysis} (hwidth : e - s ≤ a.byteUpper.value)
    (h : Decomposes data ast s e) :
    ∃ r ∈ branchRegions b a (slice data recordBegin recordEnd) recordBegin recordEnd, r.HoldsSpan s e := by
  obtain ⟨hanchor, hjoined⟩ := boundedBranch_ok hbranch
  have hmandatory := Decomposes.mandatory ast s e h
  unfold branchRegions
  cases hj : b.joined with
  | false =>
    obtain ⟨hne, hin⟩ := hmandatory _ (hrequired _ hanchor)
    exact boundedRegexRegions_holds hb he hdata hne hin hwidth
  | true  =>
    obtain ⟨hne, hfin, hks⟩ := hjoined hj
    have hoffsets := offsets_hold ast s e (he.trans hmax) h hfin
    refine boundedRegexRegionsJoined_holds hb he hdata hmax hne (fun k hk => ⟨?_, ?_⟩) hwidth
    · exact (hmandatory _ (hrequired _ (hks k hk).2)).1
    · exact hoffsets.literals k (hks k hk).1

/-! ## The pattern -/

theorem queryMandatory_ungroup (n : RegexNode) : queryMandatory (ungroup n) = queryMandatory n := by
  induction n using RegexNode.recChildren with
  | group f g nm c ih =>
    rw [ungroup, queryMandatory]
    exact ih
  | _ => rfl

theorem decomposes_ungroup {data : Bytes} {s e : Nat} (n : RegexNode) : Decomposes data (ungroup n) s e ↔ Decomposes data n s e := by
  induction n using RegexNode.recChildren with
  | group f g nm c ih =>
    rw [ungroup, Decomposes]
    exact ih
  | _ => rfl

theorem decomposes_branch {data : Bytes} {s e : Nat} {root ast : RegexNode} (hast : ast ∈ topLevelBranches root)
    (h : Decomposes data ast s e) : Decomposes data root s e := by
  rw [← decomposes_ungroup]
  unfold topLevelBranches at hast
  split at hast
  · rename_i f cs hroot
    rw [hroot]
    exact decomposesAny_iff.2 ⟨ast, hast, h⟩
  · rw [List.mem_singleton.1 hast] at h
    exact h

theorem queryMandatory_wrap (opt : PatternOptions) (n : RegexNode) : queryMandatory (wrap opt n) = queryMandatory n := by
  have hassert : ∀ g k, (RegexNode.assert g k).sensitiveLiteral = none := fun _ _ => rfl
  have hwrapped : ∀ (f g : NodeFlags) (k k' : AssertKind),
      queryMandatory (.concat f [.assert g k, n, .assert g k']) = queryMandatory n := fun f g k k' => by
    rw [queryMandatory, queryMandatoryConcat, hassert]
    dsimp only
    rw [queryMandatoryConcat]
    cases hn : n.sensitiveLiteral with
    | none => simp [queryMandatoryConcat, hassert, queryMandatory]
    | some l =>
      cases n with
      | literal f' l' =>
        rw [RegexNode.sensitiveLiteral] at hn
        cases hf : f'.icase with
        | true =>
          rw [hf] at hn
          cases hn
        | false =>
          rw [hf] at hn
          cases hn
          simp [queryMandatoryConcat, hassert, queryMandatory, hf]
      | _ => cases hn
  unfold wrap
  dsimp only
  split
  · exact hwrapped _ _ _ _
  split
  · exact hwrapped _ _ _ _
  · rfl

theorem mem_sortUnique {l : Bytes} {ls : List Bytes} (h : l ∈ sortUnique ls) : l ∈ ls := by
  have hunique : ∀ {ls : List Bytes}, l ∈ uniqueNeighbours ls → l ∈ ls := fun {ls} => by
    induction ls using uniqueNeighbours.induct with
    | case1 => exact id
    | case2 a => exact id
    | case3 a t ih =>
      rw [uniqueNeighbours, if_pos rfl]
      exact fun h => List.mem_cons_of_mem _ (ih h)
    | case4 a b t hne ih =>
      rw [uniqueNeighbours, if_neg hne]
      exact fun h => (List.mem_cons.1 h).elim (fun h => h ▸ List.mem_cons_self) (fun h => List.mem_cons_of_mem _ (ih h))
  exact (List.mem_insertionSort _).1 (hunique h)

theorem wrap_cases (opt : PatternOptions) (n : RegexNode) :
    wrap opt n = n ∨ topLevelBranches (wrap opt n) = [wrap opt n] := by
  unfold wrap
  dsimp only
  split
  · exact Or.inr rfl
  split
  · exact Or.inr rfl
  · exact Or.inl rfl

theorem mem_zip_map {α β : Type} {f : α → β} {as : List α} {a : α} {b : β} (h : (b, a) ∈ (as.map f).zip as) :
    b = f a ∧ a ∈ as := by
  induction as with
  | nil => cases h
  | cons c as ih =>
    rw [List.map_cons, List.zip_cons_cons] at h
    rcases List.mem_cons.1 h with h | h
    · cases h
      exact ⟨rfl, List.mem_cons_self⟩
    · exact ⟨(ih h).1, List.mem_cons_of_mem _ (ih h).2⟩

theorem queryBranchMandatory_eq {n : RegexNode} (h : (queryBranchMandatory n).isEmpty = false) :
    ∃ f cs, ungroup n = .alt f cs ∧ queryBranchMandatory n = cs.map queryMandatory := by
  unfold queryBranchMandatory at h ⊢
  split at h
  · rename_i f cs hn
    split at h
    · cases h
    · rename_i hany
      exact ⟨f, cs, hn, if_neg hany⟩
  · cases h

section
variable {re : RegexProgram} {opt : PatternOptions} {n : RegexNode} (hast : re.ast = wrap opt n)
  (hir : re.queryIr = analyzeQuery n re.extended)
include hast hir

/-- **The literals of a branch are mandatory in its tree, and its tree is part of the pattern's.** -/
theorem branchPairs_ok {required : List Bytes} {ast : RegexNode} (h : (required, ast) ∈ branchPairs re) :
    (∀ l ∈ required, l ∈ queryMandatory ast) ∧ (ast ∈ topLevelBranches re.ast ∨ ast = re.ast) := by
  have hmandatory : ∀ l ∈ re.queryIr.mandatory, l ∈ queryMandatory n := fun l hl => by
    rw [hir] at hl
    exact mem_sortUnique ((List.mem_insertionSort _).1 hl)
  have hbranch : re.queryIr.branchMandatory = queryBranchMandatory n := by rw [hir]; rfl
  unfold branchPairs at h
  rcases wrap_cases opt n with hn | hn
  · -- the tree is the pattern's own
    rw [hn] at hast
    split at h
    · have hlists : branchLists re = (topLevelBranches re.ast).map queryMandatory := by
        rename_i hsplit
        unfold splitBranches at hsplit
        rw [Bool.and_eq_true, Bool.not_eq_true'] at hsplit
        unfold branchLists at hsplit ⊢
        dsimp only at hsplit ⊢
        cases hempty : re.queryIr.branchMandatory.isEmpty with
        | true =>
          rw [hempty, if_pos rfl] at hsplit
          rw [if_pos rfl]
          split
          · rfl
          · rename_i hlen
            rw [if_neg hlen] at hsplit
            cases hsplit.1
        | false =>
          rw [if_neg (by decide), hbranch]
          rw [hbranch] at hempty
          obtain ⟨f, cs, hcs, heq⟩ := queryBranchMandatory_eq hempty
          rw [heq, hast, topLevelBranches, hcs]
      rw [hlists] at h
      obtain ⟨rfl, hmem⟩ := mem_zip_map h
      exact ⟨fun l hl => hl, Or.inl hmem⟩
    · obtain ⟨rfl, rfl⟩ := Prod.mk.inj (List.mem_singleton.1 h)
      cases hbs : topLevelBranches re.ast with
      | nil => exact ⟨fun l hl => by rw [hast]; exact hmandatory l hl, Or.inr rfl⟩
      | cons c cs =>
        refine ⟨fun l hl => ?_, Or.inl List.mem_cons_self⟩
        have hl := hmandatory l hl
        rw [← queryMandatory_ungroup] at hl
        rw [hast] at hbs
        unfold topLevelBranches at hbs
        split at hbs
        · rename_i f ds hn'
          rw [hn', hbs, queryMandatory] at hl
          exact queryMandatoryAlt_mem hl c List.mem_cons_self
        · cases hbs
          exact hl
  · -- the wrapped tree is the only branch
    rw [← hast] at hn
    have hsame : queryMandatory re.ast = queryMandatory n := by rw [hast, queryMandatory_wrap]
    rw [hn] at h
    split at h
    · obtain ⟨h1, h2⟩ := List.of_mem_zip h
      obtain rfl := List.mem_singleton.1 h2
      refine ⟨fun l hl => ?_, Or.inr rfl⟩
      rename_i hsplit
      unfold splitBranches at hsplit
      rw [Bool.and_eq_true, Bool.not_eq_true', hn, beq_iff_eq] at hsplit
      unfold branchLists at hsplit h1
      dsimp only at hsplit h1
      have hone : ¬ 1 < [re.ast].length := Nat.lt_irrefl 1
      rw [hn, hbranch, if_neg hone] at hsplit h1
      cases hempty : (queryBranchMandatory n).isEmpty with
      | true =>
        rw [hempty, if_pos rfl] at h1
        cases h1
      | false =>
        rw [hempty, if_neg (by decide)] at hsplit h1
        obtain ⟨f, cs, hcs, heq⟩ := queryBranchMandatory_eq hempty
        rw [heq, List.length_map] at hsplit
        rw [heq] at h1
        obtain ⟨c, rfl⟩ := List.length_eq_one_iff.1 hsplit.2
        rw [List.mem_singleton.1 h1] at hl
        rw [hsame, ← queryMandatory_ungroup, hcs]
        exact hl
    · obtain ⟨rfl, rfl⟩ := Prod.mk.inj (List.mem_singleton.1 h)
      exact ⟨fun l hl => by rw [List.headD_cons, hsame]; exact hmandatory l hl, Or.inr rfl⟩

/-- **The regions `find` searches hold every span of a branch it builds**: those of the branch itself, and those of the
record once the branches are put together. -/
theorem candidateRegions_cover (hfinite : (analyzeRegex re.ast).byteUpper.isFinite = true) {required : List Bytes}
    {ast : RegexNode} (hpair : (required, ast) ∈ branchPairs re) {b : BoundedBranch}
    (hbranch : boundedBranch required ast = some b) {data : Bytes} {recordBegin recordEnd s e : Nat} (hb : recordBegin ≤ s)
    (he : e ≤ recordEnd) (hdata : recordEnd ≤ data.length) (hmax : recordEnd ≤ sizeMax) (h : Decomposes data ast s e) :
    (∃ r ∈ branchRegions b (analyzeRegex re.ast) (slice data recordBegin recordEnd) recordBegin recordEnd,
      r.candidateBegin ≤ s ∧ s < r.candidateEnd ∧ e ≤ r.regionEnd) ∧
    ∃ r ∈ recordRegions (boundedBranches re) (analyzeRegex re.ast) (slice data recordBegin recordEnd) recordBegin recordEnd,
      r.candidateBegin ≤ s ∧ s < r.candidateEnd ∧ e ≤ r.regionEnd := by
  obtain ⟨hrequired, hpart⟩ := branchPairs_ok hast hir hpair
  have hroot : Decomposes data re.ast s e := hpart.elim (fun hmem => decomposes_branch hmem h) (fun heq => heq ▸ h)
  have hwidth : e - s ≤ (analyzeRegex re.ast).byteUpper.value := by
    have hupper := Decomposes.width re.ast s e hroot
    cases hv : (analyzeRegex re.ast).byteUpper with
    | finite v  => exact hupper v hv
    | unknown   => rw [hv] at hfinite; cases hfinite
    | unbounded => rw [hv] at hfinite; cases hfinite
  obtain ⟨r, hr, hspan⟩ := branchRegions_holds hb he hdata hmax hbranch hrequired hwidth h
  refine ⟨⟨r, hr, hspan.first, hspan.last, hspan.reach⟩, ?_⟩
  have hmem : b ∈ boundedBranches re := by
    rw [boundedBranches_eq]
    exact List.mem_filterMap.2 ⟨_, hpair, hbranch⟩
  have hall : r ∈ (boundedBranches re).flatMap (fun b => branchRegions b (analyzeRegex re.ast)
      (slice data recordBegin recordEnd) recordBegin recordEnd) := List.mem_flatMap.2 ⟨b, hmem, hr⟩
  obtain ⟨r', hr', hspan'⟩ := merged_holds (regions_sorted _) ((List.mem_insertionSort _).2 hall) hspan
  exact ⟨r', hr', hspan'.first, hspan'.last, hspan'.reach⟩

end

/-- The tree of `ab.cd`, and the program of it that `find` reads. -/
def gapTree : RegexNode := .concat {} [.literal {} [0x61, 0x62], .dot {}, .literal {} [0x63, 0x64]]

def gapProgram : RegexProgram := { ast := gapTree, queryIr := analyzeQuery gapTree false }

/-- On `xabycdx` the joined constraints hold the one span of `ab.cd`. -/
theorem candidateRegions_gap : ∃ r ∈ recordRegions (boundedBranches gapProgram) (analyzeRegex gapTree)
    (slice [0x78, 0x61, 0x62, 0x79, 0x63, 0x64, 0x78] 0 7) 0 7,
    r.candidateBegin ≤ 1 ∧ 1 < r.candidateEnd ∧ 6 ≤ r.regionEnd := by
  have hspan : Decomposes [0x78, 0x61, 0x62, 0x79, 0x63, 0x64, 0x78] gapTree 1 6 :=
    ⟨3, ⟨by decide, rfl⟩, 4, ⟨by decide, by decide⟩, 6, ⟨by decide, rfl⟩, rfl⟩
  have hpair : ([[0x61, 0x62], [0x63, 0x64]], gapTree) ∈ branchPairs gapProgram := List.mem_singleton.2 rfl
  exact (@candidateRegions_cover gapProgram {} gapTree rfl rfl rfl _ _ hpair _ rfl _ 0 7 1 6 (by decide) (by decide)
    (by decide) (by decide) hspan).2

end Pergrep
