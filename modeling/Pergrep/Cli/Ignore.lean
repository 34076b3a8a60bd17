import Pergrep.Cli.Remainder
/-!
# Ignore — the rules of ignore files

`load_ignore` reads a rule a line and `gitignore_rule_match` asks a rule about the path of a file.  A rule that matches a
directory is to exclude all that is below it.  A rule for directories does, since the directories of the path are tried one
by one; so does a rule without a slash, which is tried on each name.  A rule with a slash that is not for directories is
tried on the whole path of the file only, and excludes what is below a directory it matches when what is left of its pattern
there takes every relative path, which is decided by a search (`coversBelow_iff`) and needs a `**`
(`gitignoreRuleMatch_descends_iff`).
-/
namespace Pergrep.Cli

structure IgnoreRule where
  pat : Bytes
  neg : Bool := false
  ci : Bool := false
  dirOnly : Bool := false
  deriving DecidableEq, Repr

def readRule (ci : Bool) (line : Bytes) : Option IgnoreRule :=
  let x := if line.getLast? == some 0x0D then line.dropLast else line
  if x.isEmpty || x.head? == some 0x23 then none
  else
    let neg := x.head? == some 0x21
    let x := if neg then x.tail else x
    let dir := x.getLast? == some slash
    some { pat := if dir then x.dropLast else x, neg := neg, ci := ci, dirOnly := dir }

def directories : Bytes → List Bytes
  | [] => []
  | b :: t => (if b == slash then [[]] else []) ++ (directories t).map (fun d => b :: d)

def basename (path : Bytes) : Bytes := (path.reverse.takeWhile (· != slash)).reverse

def IgnoreRule.anchored (r : IgnoreRule) : Bool := r.pat.head? == some slash

def IgnoreRule.unanchored (r : IgnoreRule) : Bytes := if r.anchored then r.pat.tail else r.pat

def gitignoreRuleMatch (r : IgnoreRule) (path : Bytes) : Bool :=
  let pat := r.unanchored
  let exact := fun x => wildcardPathMatch pat x r.ci
  if r.dirOnly then
    (directories path).any (fun d =>
      if r.anchored then exact d else if pat.contains slash then exact d else exact (basename d))
  else if r.anchored then exact path
  else if pat.contains slash then exact path
  else (path.splitOn slash).any exact

/-! ## Directories -/

/-- The rule looks at whole paths, and not at one name at a time. -/
def IgnoreRule.wholePath (r : IgnoreRule) : Bool := r.anchored || r.unanchored.contains slash

/-- The rule matches a directory: a pattern with a slash its path, any other its name. -/
def matchesDirectory (r : IgnoreRule) (d : Bytes) : Bool :=
  wildcardPathMatch r.unanchored (if r.wholePath then d else basename d) r.ci

/-- A path below a directory: some names, with slashes between them. -/
def IsRelative (x : Bytes) : Prop := ∃ names ≠ [], (∀ a ∈ names, PathOrder.IsName slash a) ∧ x = PathOrder.join slash names

theorem mem_directories {path d : Bytes} : d ∈ directories path ↔ ∃ x, path = d ++ slash :: x := by
  induction path generalizing d with
  | nil =>
    constructor
    · exact fun h => (nomatch h)
    · rintro ⟨x, hx⟩
      cases d <;> exact (nomatch hx)
  | cons b t ih =>
    rw [directories, List.mem_append, List.mem_map]
    constructor
    · rintro (h | ⟨d, h, rfl⟩)
      · split at h
        · rename_i hb
          rw [List.mem_singleton.1 h, eq_of_beq hb]
          exact ⟨t, rfl⟩
        · exact (nomatch h)
      · obtain ⟨x, rfl⟩ := ih.1 h
        exact ⟨x, rfl⟩
    · rintro ⟨x, hx⟩
      cases d with
      | nil =>
        obtain ⟨rfl, rfl⟩ := List.cons.inj hx
        exact Or.inl List.mem_cons_self
      | cons c d =>
        obtain ⟨rfl, rfl⟩ := List.cons.inj hx
        exact Or.inr ⟨d, ih.2 ⟨x, rfl⟩, rfl⟩

theorem basename_mem (d : Bytes) : basename d ∈ d.splitOn slash := by
  have hno : slash ∉ basename d := by
    unfold basename
    rw [List.mem_reverse]
    intro h
    exact absurd (List.mem_takeWhile_imp h) (by decide)
  have hsplit : d = (d.reverse.dropWhile (· != slash)).reverse ++ basename d := by
    unfold basename
    rw [← List.reverse_append, List.takeWhile_append_dropWhile, List.reverse_reverse]
  generalize basename d = b at hno hsplit ⊢
  cases hdrop : d.reverse.dropWhile (· != slash) with
  | nil =>
    rw [hdrop, List.reverse_nil, List.nil_append] at hsplit
    rw [hsplit, List.splitOn_eq_singleton hno]
    exact List.mem_cons_self
  | cons c rest =>
    obtain rfl : c = slash := by
      have hc := List.head?_dropWhile_not (fun b => b != slash) d.reverse
      rw [hdrop] at hc
      exact not_not.1 (fun hne => by simp [hne] at hc)
    rw [hdrop, List.reverse_cons, List.append_assoc, List.singleton_append] at hsplit
    rw [hsplit, List.splitOn_append_cons_self, List.splitOn_eq_singleton hno]
    exact List.mem_append_right _ List.mem_cons_self

/-- **A rule for directories and a rule without a slash** exclude all that is below a directory they match. -/
theorem gitignoreRuleMatch_below {r : IgnoreRule} {d : Bytes} (hd : matchesDirectory r d = true)
    (h : r.dirOnly = true ∨ r.wholePath = false) (x : Bytes) : gitignoreRuleMatch r (d ++ slash :: x) = true := by
  unfold gitignoreRuleMatch
  dsimp only
  unfold matchesDirectory IgnoreRule.wholePath at hd
  cases hdir : r.dirOnly with
  | true =>
    rw [if_pos rfl, List.any_eq_true]
    refine ⟨d, mem_directories.2 ⟨x, rfl⟩, ?_⟩
    cases hanch : r.anchored with
    | true =>
      rw [hanch, Bool.true_or, if_pos rfl] at hd
      rw [if_pos rfl]
      exact hd
    | false =>
      rw [hanch, Bool.false_or] at hd
      rw [if_neg Bool.false_ne_true]
      cases hslash : r.unanchored.contains slash with
      | true =>
        rw [hslash, if_pos rfl] at hd
        rw [if_pos rfl]
        exact hd
      | false =>
        rw [hslash, if_neg Bool.false_ne_true] at hd
        rw [if_neg Bool.false_ne_true]
        exact hd
  | false =>
    have hname := h.resolve_left (by rw [hdir]; exact Bool.false_ne_true)
    unfold IgnoreRule.wholePath at hname
    rw [Bool.or_eq_false_iff] at hname
    rw [hname.1, hname.2, Bool.or_false, if_neg Bool.false_ne_true] at hd
    rw [if_neg Bool.false_ne_true, hname.1, if_neg Bool.false_ne_true, hname.2, if_neg Bool.false_ne_true,
      List.any_eq_true]
    refine ⟨basename d, ?_, hd⟩
    rw [List.splitOn_append_cons_self]
    exact List.mem_append_left _ (basename_mem d)

theorem gitignoreRuleMatch_whole {r : IgnoreRule} (hdir : r.dirOnly = false) (h : r.wholePath = true) (path : Bytes) :
    gitignoreRuleMatch r path = wildcardPathMatch r.unanchored path r.ci := by
  unfold gitignoreRuleMatch
  dsimp only
  unfold IgnoreRule.wholePath at h
  rw [hdir, if_neg Bool.false_ne_true]
  cases hanch : r.anchored with
  | true => rw [if_pos rfl]
  | false =>
    rw [hanch, Bool.false_or] at h
    rw [if_neg Bool.false_ne_true, if_pos h]

/-! ## Patterns without `**` -/

theorem charLen_le (text : Bytes) : charLen text ≤ 4 := by
  cases text with
  | nil => decide
  | cons b t =>
    unfold charLen utf8CharLen
    split <;> repeat' split
    all_goals decide

theorem piece_count_le {ci : Bool} {token : GlobToken} (hdeep : token ≠ .deep ∧ token ≠ .deepDir) {piece rest : Bytes}
    (h : rest ∈ tokenEnds (wildcardSyntax ci) token (piece ++ rest)) : piece.count slash ≤ 4 := by
  have hhead : ∀ (p : UInt8 → Bool) (f : Bytes → Bytes) (k : Nat), (∀ text, text.length ≤ (f text).length + k) →
      rest ∈ afterHead p f (piece ++ rest) → piece.count slash ≤ k := by
    intro p f k hf h
    obtain ⟨b, t, htext, -, hrest⟩ := mem_afterHead.1 h
    have hlength := hf (piece ++ rest)
    rw [htext, ← hrest, ← htext, List.length_append] at hlength
    have hcount := @List.count_le_length _ _ slash piece
    omega
  cases token with
  | literal c => exact (hhead _ List.tail 1 (fun text => by rw [List.length_tail]; omega) h).trans (by decide)
  | charClass body => exact (hhead _ List.tail 1 (fun text => by rw [List.length_tail]; omega) h).trans (by decide)
  | anyChar =>
    refine hhead _ (fun x => x.drop (charLen x)) 4 (fun text => ?_) h
    have := charLen_le text
    rw [List.length_drop]
    omega
  | star =>
    rw [wildcard_keeps (wildcardSyntax_lawful ci).sep_slash rfl hdeep h (fun h => nomatch h) (fun _ _ _ _ h => nomatch h)]
    exact Nat.zero_le 4
  | deep => exact absurd rfl hdeep.1
  | deepDir => exact absurd rfl hdeep.2

theorem tokensGo_length (sep : UInt8 → Bool) : ∀ (n : Nat) (pat : Bytes), (tokensGo sep n pat).length ≤ n
  | 0, [] => Nat.le_refl 0
  | 0, _ :: _ => Nat.le_refl 0
  | _ + 1, [] => Nat.zero_le _
  | n + 1, c :: pat => by
    rw [tokensGo, List.length_cons]
    exact Nat.succ_le_succ (tokensGo_length sep n _)

theorem count_slash_le {ci : Bool} {pat text : Bytes} (hno : ¬ [asterisk, asterisk] <:+: pat)
    (h : wildcardPathMatch pat text ci = true) : text.count slash ≤ 4 * pat.length := by
  obtain ⟨ps, hrun⟩ := (globGo_iff (wildcardSyntax ci) pat text).1 h
  have hcount := hrun.count_le (a := slash) (k := 4)
    (fun token htoken piece rest hrest => piece_count_le (tokens_no_deep _ _ _ hno token htoken) hrest)
  have hlength := tokensGo_length (wildcardSyntax ci).sep pat.length pat
  exact hcount.trans (Nat.mul_le_mul_left 4 hlength)

theorem exists_deep (n : Nat) : ∃ x, IsRelative x ∧ n ≤ x.count slash := by
  have hname : PathOrder.IsName slash [0x78] := by decide
  refine ⟨_, ⟨List.replicate (n + 1) [0x78], List.cons_ne_nil _ _, fun a ha => ?_, rfl⟩, ?_⟩
  · rw [List.eq_of_mem_replicate ha]
    exact hname
  · induction n with
    | zero => exact Nat.zero_le _
    | succ n ih =>
      rw [List.replicate_succ,
        PathOrder.join_cons slash [0x78] (show List.replicate (n + 1) [0x78] ≠ [] from List.cons_ne_nil _ _),
        List.count_append, List.count_cons_self]
      omega

/-! ## When a pattern takes all that is below a directory -/

/-- A letter of a relative path: whether a name has begun, before the letter and after it. -/
def nameWalk (begun : Bool) (b : UInt8) : Option Bool :=
  if b == slash then (if begun then some false else none) else some true

theorem isRelative_iff {x : Bytes} : IsRelative x ↔ [] ∉ x.splitOn slash := PathOrder.exists_join_iff

theorem isRelative_cons_cons {c b : UInt8} (hc : c ≠ slash) (t : Bytes) :
    IsRelative (c :: b :: t) ↔ if b = slash then IsRelative t else IsRelative (b :: t) := by
  simp only [isRelative_iff, List.splitOn_cons_eq_if_modifyHead, beq_iff_eq, if_neg hc]
  by_cases hb : b = slash
  · rw [if_pos hb, if_pos hb, List.modifyHead_cons, List.mem_cons, not_or]
    exact and_iff_right (fun h => nomatch h)
  · rw [if_neg hb, if_neg hb]
    cases hsplit : t.splitOn slash with
    | nil => exact absurd hsplit (List.splitOn_ne_nil slash t)
    | cons a rest =>
      rw [List.modifyHead_cons, List.modifyHead_cons, List.mem_cons, List.mem_cons, not_or, not_or]
      exact and_congr_left (fun _ => iff_of_true (fun h => nomatch h) (fun h => nomatch h))

/-- **The relative paths**, letter by letter. -/
theorem admits_nameWalk : ∀ x : Bytes, (Inclusion.admits nameWalk id false x = true ↔ IsRelative x) ∧
    ∀ c, c ≠ slash → (Inclusion.admits nameWalk id true x = true ↔ IsRelative (c :: x))
  | [] => by
    refine ⟨?_, fun c hc => ?_⟩
    · rw [isRelative_iff, List.splitOn_nil]
      exact ⟨fun h => absurd h Bool.false_ne_true, fun h => absurd (List.mem_singleton.2 rfl) h⟩
    · rw [isRelative_iff, List.splitOn_eq_singleton (fun h => hc (List.mem_singleton.1 h).symm)]
      exact iff_of_true rfl (fun h => List.cons_ne_nil _ _ (List.mem_singleton.1 h).symm)
  | b :: t => by
    have ih := admits_nameWalk t
    simp only [Inclusion.admits, nameWalk]
    by_cases hb : b = slash
    · have hslash : (b == slash) = true := beq_iff_eq.2 hb
      rw [if_pos hslash, if_pos hslash, if_neg Bool.false_ne_true, if_true]
      refine ⟨?_, fun c hc => ?_⟩
      · rw [isRelative_iff, List.splitOn_cons_eq_if_modifyHead, if_pos hslash]
        exact ⟨fun h => absurd h Bool.false_ne_true, fun h => absurd List.mem_cons_self h⟩
      · rw [isRelative_cons_cons hc, if_pos hb]
        exact ih.1
    · have hslash : ¬ (b == slash) = true := fun h => hb (beq_iff_eq.1 h)
      rw [if_neg hslash, if_neg hslash]
      refine ⟨ih.2 b hb, fun c hc => ?_⟩
      rw [isRelative_cons_cons hc, if_neg hb]
      exact ih.2 b hb

def allBytes : Bytes := (List.range 256).map UInt8.ofNat

theorem mem_allBytes (b : UInt8) : b ∈ allBytes :=
  List.mem_map.2 ⟨b.toNat, List.mem_range.2 b.toNat_lt, UInt8.ofNat_toNat⟩

/-- Whether a pattern, when it has taken a directory and a slash, takes every relative path: a search through the sets of
what may be left of it. -/
def coversBelow (r : IgnoreRule) (d : Bytes) : Bool :=
  let ts := tokens (wildcardSyntax r.ci).sep r.unanchored
  let left := (d ++ [slash]).foldl (Inclusion.after (Remainder.step r.ci) (remainders ts)) [⟨0, none, ts⟩]
  Inclusion.includes nameWalk id (Remainder.step r.ci) (Remainder.atEnd r.ci) allBytes (remainders ts)
    (2 * 2 ^ (remainders ts).length + 1) false left

theorem coversBelow_iff (r : IgnoreRule) (d : Bytes) :
    coversBelow r d = true ↔ ∀ x, IsRelative x → wildcardPathMatch r.unanchored (d ++ slash :: x) r.ci = true := by
  unfold coversBelow
  dsimp only
  generalize hts : tokens (wildcardSyntax r.ci).sep r.unanchored = ts
  have hsteps := steps_remainders r.ci ts
  have hstart : ∀ p ∈ [(⟨0, none, ts⟩ : Remainder)], p ∈ remainders ts := fun p hp => by
    rw [List.mem_singleton.1 hp]
    exact mem_remainders.2 (among_plain (mem_follow_self ts))
  have hleft : ((d ++ [slash]).foldl (Inclusion.after (Remainder.step r.ci) (remainders ts)) [⟨0, none, ts⟩]).Sublist
      (remainders ts) := by
    rw [List.foldl_append]
    exact Inclusion.after_sublist _ _
  have hcard : Fintype.card Bool * 2 ^ (remainders ts).length < 2 * 2 ^ (remainders ts).length + 1 := by
    rw [Fintype.card_bool]
    exact Nat.lt_succ_self _
  refine (Inclusion.includes_iff hsteps mem_allBytes hcard false hleft).trans ?_
  refine forall_congr' (fun x => imp_congr (admits_nameWalk x).1 ?_)
  rw [hsteps.takes_foldl x (d ++ [slash]) hstart, List.append_assoc, List.singleton_append]
  simp only [List.mem_singleton, exists_eq_left]
  rw [takes_plain, ← hts]
  exact (Bool.eq_iff_iff.1 (globGo_eq (wildcardSyntax r.ci) r.unanchored.length r.unanchored (d ++ slash :: x)
    (Nat.le_refl _))).symm

/-- **A pattern that takes all that is below a directory** has a `**`. -/
theorem deep_of_coversBelow {r : IgnoreRule} {d : Bytes} (h : coversBelow r d = true) : [asterisk, asterisk] <:+: r.pat := by
  by_contra hno
  obtain ⟨x, hx, hdeep⟩ := exists_deep (4 * r.pat.length)
  have hsub : r.unanchored <:+ r.pat := by
    unfold IgnoreRule.unanchored
    split
    · exact List.tail_suffix _
    · exact List.suffix_rfl
  have hle := count_slash_le (fun hin => hno (hin.trans hsub.isInfix)) ((coversBelow_iff r d).1 h x hx)
  have hlength := hsub.length_le
  rw [List.count_append, List.count_cons_self] at hle
  omega

/-! ## Patterns that end in `**` -/

theorem dirSteps_append (ci : Bool) (more : Bytes) : ∀ {text rest : Bytes},
    rest ∈ dirSteps (wildcardSyntax ci) text.length text →
      rest ++ more ∈ dirSteps (wildcardSyntax ci) (text ++ more).length (text ++ more)
  | [], _, h => absurd h List.not_mem_nil
  | b :: t, rest, h => by
    rw [List.length_cons, dirSteps] at h
    rw [List.cons_append, List.length_cons, dirSteps]
    rcases List.mem_append.1 h with h | h
    · refine List.mem_append_left _ ?_
      split at h
      · rename_i hb
        rw [if_pos hb, List.mem_singleton.1 h]
        exact List.mem_singleton.2 rfl
      · exact absurd h List.not_mem_nil
    · exact List.mem_append_right _ (dirSteps_append ci more h)

theorem tokenEnds_append {ci : Bool} {token : GlobToken} (htoken : token ≠ .anyChar) (more : Bytes) :
    ∀ {text rest : Bytes}, rest ∈ tokenEnds (wildcardSyntax ci) token text →
      rest ++ more ∈ tokenEnds (wildcardSyntax ci) token (text ++ more) := by
  have hhead : ∀ {p : UInt8 → Bool} {text rest : Bytes}, rest ∈ afterHead p List.tail text →
      rest ++ more ∈ afterHead p List.tail (text ++ more) := by
    intro p text rest h
    obtain ⟨b, t, htext, hb, hrest⟩ := mem_afterHead.1 h
    exact mem_afterHead.2 ⟨b, t ++ more, by rw [htext]; rfl, hb, by rw [hrest]; rfl⟩
  intro text
  cases token with
  | literal c => exact hhead
  | charClass body => exact hhead
  | anyChar => exact absurd rfl htoken
  | star =>
    induction text with
    | nil =>
      intro rest h
      rw [List.mem_singleton.1 h]
      exact List.mem_cons_self
    | cons b t ih =>
      intro rest h
      rw [tokenEnds_star] at h
      rw [List.cons_append, tokenEnds_star]
      rcases List.mem_cons.1 h with rfl | h
      · exact List.mem_cons_self
      · refine List.mem_cons_of_mem _ ?_
        split at h
        · exact nomatch h
        · rename_i hb
          rw [if_neg hb]
          exact ih h
  | deep =>
    induction text with
    | nil =>
      intro rest h
      rw [List.mem_singleton.1 h]
      exact List.mem_cons_self
    | cons b t ih =>
      intro rest h
      rw [List.cons_append, tokenEnds_deep]
      rcases List.mem_cons.1 h with rfl | h
      · exact List.mem_cons_self
      · exact List.mem_cons_of_mem _ (ih h)
  | deepDir =>
    intro rest h
    rcases List.mem_cons.1 h with rfl | h
    · exact List.mem_cons_self
    · exact List.mem_cons_of_mem _ (dirSteps_append ci more h)

/-- Tokens that take letters, and a `**` that takes what comes after. -/
theorem accepts_append {ci : Bool} (more : Bytes) : ∀ {ts : List GlobToken} {text : Bytes}, .anyChar ∉ ts →
    Glob.accepts (tokenEnds (wildcardSyntax ci)) (ts ++ [.deep]) text = true →
      Glob.accepts (tokenEnds (wildcardSyntax ci)) (ts ++ [.deep]) (text ++ more) = true
  | [], text, _, _ => by
    have hall : ∀ text : Bytes, [] ∈ tokenEnds (wildcardSyntax ci) .deep text := by
      intro text
      induction text with
      | nil => exact List.mem_cons_self
      | cons b t ih => exact List.mem_cons_of_mem _ ih
    exact List.any_eq_true.2 ⟨[], hall (text ++ more), rfl⟩
  | token :: ts, text, hts, h => by
    rw [List.mem_cons, not_or] at hts
    obtain ⟨rest, hrest, h⟩ := List.any_eq_true.1 h
    exact List.any_eq_true.2 ⟨rest ++ more, tokenEnds_append (Ne.symm hts.1) more hrest, accepts_append more hts.2 h⟩

/-- **A double star at the end** of a pattern without `?` takes all that is below a directory the pattern takes. -/
theorem coversBelow_of_deep {r : IgnoreRule} {d : Bytes} (hd : wildcardPathMatch r.unanchored d r.ci = true)
    (hlast : (tokens (wildcardSyntax r.ci).sep r.unanchored).getLast? = some .deep)
    (hany : .anyChar ∉ tokens (wildcardSyntax r.ci).sep r.unanchored) : coversBelow r d = true := by
  refine (coversBelow_iff r d).2 (fun x _ => ?_)
  unfold wildcardPathMatch at hd ⊢
  rw [globGo_eq _ _ _ _ (Nat.le_refl _)] at hd ⊢
  change Glob.accepts _ (tokens _ _) _ = true at hd
  change Glob.accepts _ (tokens _ _) _ = true
  obtain ⟨ts, hts⟩ := List.getLast?_eq_some_iff.1 hlast
  rw [hts] at hd hany ⊢
  exact accepts_append (slash :: x) (fun h => hany (List.mem_append_left _ h)) hd

/-! ## When a rule excludes all that is below a directory -/

/-- **A rule that excludes a directory excludes all that is below it** when it is for directories, or has no slash, or what is
left of its pattern after the directory takes every relative path, and only then.  For the last a pattern needs a `**`, and a
`**` at its end is enough when there is no `?` in it. -/
theorem gitignoreRuleMatch_descends_iff {r : IgnoreRule} {d : Bytes} (hd : matchesDirectory r d = true) :
    ((∀ x, IsRelative x → gitignoreRuleMatch r (d ++ slash :: x) = true) ↔
      r.dirOnly = true ∨ r.wholePath = false ∨ coversBelow r d = true) ∧
    (¬ [asterisk, asterisk] <:+: r.pat → coversBelow r d = false) ∧
    (r.wholePath = true → (tokens (wildcardSyntax r.ci).sep r.unanchored).getLast? = some .deep →
      .anyChar ∉ tokens (wildcardSyntax r.ci).sep r.unanchored → coversBelow r d = true) := by
  refine ⟨⟨fun h => ?_, ?_⟩, fun hno => Bool.eq_false_iff.2 (fun h => hno (deep_of_coversBelow h)), fun hwhole => ?_⟩
  · cases hdir : r.dirOnly with
    | true => exact Or.inl rfl
    | false =>
      cases hwhole : r.wholePath with
      | false => exact Or.inr (Or.inl rfl)
      | true =>
        refine Or.inr (Or.inr ((coversBelow_iff r d).2 (fun x hx => ?_)))
        rw [← gitignoreRuleMatch_whole hdir hwhole]
        exact h x hx
  · rintro (h | h | h) x hx
    · exact gitignoreRuleMatch_below hd (Or.inl h) x
    · exact gitignoreRuleMatch_below hd (Or.inr h) x
    · cases hdir : r.dirOnly with
      | true => exact gitignoreRuleMatch_below hd (Or.inl hdir) x
      | false =>
        cases hwhole : r.wholePath with
        | false => exact gitignoreRuleMatch_below hd (Or.inr hwhole) x
        | true =>
          rw [gitignoreRuleMatch_whole hdir hwhole]
          exact (coversBelow_iff r d).1 h x hx
  · rw [matchesDirectory, hwhole, if_pos rfl] at hd
    exact coversBelow_of_deep hd

theorem isRelative_name : IsRelative [0x78] :=
  ⟨[[0x78]], List.cons_ne_nil _ _, fun a ha => by rw [List.mem_singleton.1 ha]; decide, rfl⟩

/-- The rule `/a/**` and the directory `a/b`. -/
theorem gitignoreRuleMatch_descends_deep :
    gitignoreRuleMatch { pat := [slash, 0x61, slash, asterisk, asterisk] } ([0x61, slash, 0x62] ++ slash :: [0x78]) = true := by
  have hdescends := @gitignoreRuleMatch_descends_iff { pat := [slash, 0x61, slash, asterisk, asterisk] } [0x61, slash, 0x62]
    (by decide +kernel)
  refine hdescends.1.2 (Or.inr (Or.inr (hdescends.2.2 ?_ ?_ ?_))) [0x78] isRelative_name
  · decide +kernel
  · decide +kernel
  · decide +kernel

/-- `/build` -/
def buildLine : Bytes := [0x2F, 0x62, 0x75, 0x69, 0x6C, 0x64]

/-- The rule `/build` excludes a file `build`, and no file in a directory of that name. -/
theorem not_gitignoreRuleMatch_descends :
    ¬ ∀ (ci : Bool) (line : Bytes) (r : IgnoreRule) (d : Bytes), readRule ci line = some r → r.neg = false →
      matchesDirectory r d = true → ∀ x, IsRelative x → gitignoreRuleMatch r (d ++ slash :: x) = true := by
  intro h
  have hbuild := h false buildLine { pat := buildLine } buildLine.tail (by decide +kernel) (by decide) (by decide +kernel)
    [0x78] isRelative_name
  revert hbuild
  decide +kernel

end Pergrep.Cli
