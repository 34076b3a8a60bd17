import Pergrep.Index.Chunks
import Pergrep.Index.Filters
import Pergrep.Lib.Tally
/-!
# Planner — what the planner's statistics count

Two passes over the corpus: the windows of the files, then those of the chunks, each into one table under the four bytes they
hold.  A key's numbers are sums over the files and over the chunks (`countFiles_get`, `countChunks_get`), and a chunk inside
its file has no window the first pass did not see, so no count is lost; statistics that are ready are exact (`StatsExact`).
-/
namespace Pergrep

open Tally

def IndexData.stats (I : IndexData) (key : UInt32) : QgramStats := Tally.get {} I.exactQgrams key

def windowKeys (s : Bytes) : List UInt32 := (windows s).map qgram4Key

def keyPositions (s : Bytes) (key : UInt32) : List Nat :=
  (List.range (s.length - 3)).filter (fun q => qgram4Key ((s.drop q).take 4) == key)

def inBucket (I : IndexData) (b : Nat) (z : Chunk) : Bool := (qgrams (I.view z)).any (fun h => h % 65536 == b)

def Chunk.InFile (I : IndexData) (z : Chunk) : Prop :=
  z.fileId < I.loaded.length ∧ z.coreBegin ≤ z.extEnd ∧ z.extEnd ≤ (I.data z.fileId).length

/-- **Exact statistics**: each key has the number of positions that hold it, and the files and the chunks that have such a
position, in increasing order; each bucket has its chunks. -/
structure StatsExact (I : IndexData) : Prop where
  occurrences : ∀ key, (I.stats key).occurrenceFrequency = (I.loaded.map (fun s => (keyPositions s key).length)).sum
  documentIds : ∀ key, (I.stats key).documentIds =
    (List.range I.loaded.length).filter (fun fid => !(keyPositions (I.data fid) key).isEmpty)
  documentFrequency : ∀ key, (I.stats key).documentFrequency = (I.stats key).documentIds.length
  chunkIds : ∀ key, (I.stats key).chunkIds =
    (List.range I.chunks.length).filter (fun ci => I.chunks[ci]?.any (fun z => !(keyPositions (I.view z) key).isEmpty))
  chunkFrequency : ∀ key, (I.stats key).chunkFrequency = (I.stats key).chunkIds.length
  hashChunkIds : ∀ b, I.hashChunkIds b = (List.range I.chunks.length).filter (fun ci => I.chunks[ci]?.any (inBucket I b))
  hashChunkFreq : ∀ b, I.hashChunkFreq b = (I.hashChunkIds b).length

/-! ## Positions -/

theorem count_windowKeys (s : Bytes) (key : UInt32) : (windowKeys s).count key = (keyPositions s key).length := by
  unfold windowKeys windows keyPositions
  rw [List.map_map, List.count, List.countP_map, List.countP_eq_length_filter]
  rfl

theorem mem_windowKeys {s : Bytes} {key : UInt32} : key ∈ windowKeys s ↔ (!(keyPositions s key).isEmpty) = true := by
  rw [← List.count_pos_iff, count_windowKeys, Bool.not_eq_true', List.isEmpty_eq_false_iff, List.length_pos_iff]

theorem windowKeys_slice {s : Bytes} {b e : Nat} {key : UInt32} (h : key ∈ windowKeys (slice s b e)) : key ∈ windowKeys s := by
  obtain ⟨w, hw, rfl⟩ := List.mem_map.1 h
  obtain ⟨j, hj, rfl⟩ := mem_windows.1 hw
  unfold slice at hj ⊢
  rw [List.length_drop, List.length_take] at hj
  refine List.mem_map.2 ⟨_, mem_windows.2 ⟨b + j, by omega, ?_⟩, rfl⟩
  rw [List.drop_drop, List.drop_take, List.take_take, Nat.min_eq_left (by omega)]

/-! ## The files -/

def QgramStats.addOccurrences (q : QgramStats) (n : Nat) : QgramStats :=
  { q with occurrenceFrequency := q.occurrenceFrequency + n }

def QgramStats.addDocuments (q : QgramStats) (ids : List Nat) : QgramStats :=
  { q with documentFrequency := q.documentFrequency + ids.length, documentIds := q.documentIds ++ ids }

def QgramStats.addChunks (q : QgramStats) (ids : List Nat) : QgramStats :=
  { q with chunkFrequency := q.chunkFrequency + ids.length, chunkIds := q.chunkIds ++ ids }

@[simp] theorem QgramStats.addDocuments_nil (q : QgramStats) : q.addDocuments [] = q := by
  simp [addDocuments]

@[simp] theorem QgramStats.addChunks_nil (q : QgramStats) : q.addChunks [] = q := by
  simp [addChunks]

theorem QgramStats.addChunks_append (q : QgramStats) (ids ids' : List Nat) :
    (q.addChunks ids).addChunks ids' = q.addChunks (ids ++ ids') := by
  simp [addChunks, Nat.add_assoc]

theorem QgramTable.update_eq (t : QgramTable) (key : UInt32) (f : QgramStats → QgramStats) :
    QgramTable.update t key f = Tally.update t key f := rfl

def QgramTable.round (t : QgramTable) (ks : List UInt32) (f : QgramStats → QgramStats) : QgramTable :=
  ks.dedup.foldl (fun t key => t.update key f) t

theorem QgramTable.keys_round (t : QgramTable) (ks : List UInt32) (f : QgramStats → QgramStats) :
    keys (t.round ks f) = keys t := keys_rounds f ks.dedup t

theorem QgramTable.get_round (t : QgramTable) (ks : List UInt32) (f : QgramStats → QgramStats) (key : UInt32)
    (hlisted : key ∈ ks → key ∈ keys t) :
    get ({} : QgramStats) (t.round ks f) key = if key ∈ ks then f (get {} t key) else get {} t key := by
  refine (get_rounds ({} : QgramStats) f t (List.nodup_dedup ks) key).trans ?_
  by_cases hin : key ∈ ks
  · rw [if_pos ⟨List.mem_dedup.2 hin, hlisted hin⟩, if_pos hin]
  · rw [if_neg (fun h => hin (List.mem_dedup.1 h.1)), if_neg hin]

/-- **The windows of one file**, counted under their keys. -/
theorem countWindows_get : ∀ {ks : List UInt32} {t t' : QgramTable}, countWindows ks t = some t' → ∀ key,
    get {} t' key = (get {} t key).addOccurrences (ks.count key) ∧ (key ∈ keys t' ↔ key ∈ keys t ∨ key ∈ ks)
  | [], t, t', h, key => by
    obtain rfl := Option.some.inj h
    exact ⟨rfl, (or_iff_left List.not_mem_nil).symm⟩
  | k :: ks, t, t', h, key => by
    have hcount : ∀ q : QgramStats, (if key = k then q.addOccurrences 1 else q).addOccurrences (ks.count key) =
        q.addOccurrences ((k :: ks).count key) := by
      intro q
      rw [List.count_cons]
      by_cases hk : key = k
      · rw [if_pos hk, if_pos (beq_iff_eq.2 hk.symm)]
        unfold QgramStats.addOccurrences
        simp only [Nat.add_assoc, Nat.add_comm 1]
      · rw [if_neg hk, if_neg (fun heq => hk (beq_iff_eq.1 heq).symm)]
        rfl
    rw [countWindows] at h
    split at h
    · rename_i hany
      have hk := any_iff.1 hany
      obtain ⟨hget, hkeys⟩ := countWindows_get h key
      have hupdate : get {} (t.update k (fun q => q.addOccurrences 1)) key =
          if key = k then (get {} t key).addOccurrences 1 else get {} t key := by
        rw [QgramTable.update_eq, get_update]
        by_cases hkey : key = k
        · rw [if_pos ⟨hkey, hk⟩, if_pos hkey, hkey]
        · rw [if_neg (fun h => hkey h.1), if_neg hkey]
      refine ⟨hget.trans ?_, hkeys.trans ?_⟩
      · rw [← hcount]
        exact congrArg (fun q => QgramStats.addOccurrences q (ks.count key)) hupdate
      · rw [QgramTable.update_eq, keys_update, List.mem_cons]
        constructor
        · rintro (h | h)
          · exact Or.inl h
          · exact Or.inr (Or.inr h)
        · rintro (h | rfl | h)
          · exact Or.inl h
          · exact Or.inl hk
          · exact Or.inr h
    · rename_i hany
      have hk : k ∉ keys t := fun hmem => hany (any_iff.2 hmem)
      split at h
      · cases h
      · obtain ⟨hget, hkeys⟩ := countWindows_get h key
        refine ⟨hget.trans ?_, hkeys.trans ?_⟩
        · rw [← hcount, get_append {} _ hk]
          by_cases hkey : key = k
          · rw [if_pos hkey, if_pos hkey, hkey, get_of_notMem {} hk]
            rfl
          · rw [if_neg hkey, if_neg hkey]
        · rw [keys, List.map_append, List.mem_append, List.map_singleton, List.mem_singleton, List.mem_cons, or_assoc]
          rfl

def documentsFrom (fid : Nat) (ss : List Bytes) (key : UInt32) : List Nat :=
  ((ss.zipIdx fid).filter (fun e => !(keyPositions e.1 key).isEmpty)).map Prod.snd

theorem documentsFrom_cons (fid : Nat) (s : Bytes) (ss : List Bytes) (key : UInt32) :
    documentsFrom fid (s :: ss) key = (if key ∈ windowKeys s then [fid] else []) ++ documentsFrom (fid + 1) ss key := by
  unfold documentsFrom
  rw [List.zipIdx_cons, List.filter_cons]
  by_cases h : key ∈ windowKeys s
  · rw [if_pos (mem_windowKeys.1 h), if_pos h]
    rfl
  · rw [if_neg (fun hne => h (mem_windowKeys.2 hne)), if_neg h]
    rfl

/-- **The first pass**: occurrences and files, under every key. -/
theorem countFiles_get : ∀ {ss : List Bytes} {fid : Nat} {t t' : QgramTable}, countFiles fid ss t = some t' → ∀ key,
    get {} t' key = ((get {} t key).addOccurrences (ss.map (fun s => (keyPositions s key).length)).sum).addDocuments
        (documentsFrom fid ss key) ∧
      (key ∈ keys t' ↔ key ∈ keys t ∨ ∃ s ∈ ss, key ∈ windowKeys s)
  | [], fid, t, t', h, key => by
    obtain rfl := Option.some.inj h
    refine ⟨?_, (or_iff_left (fun ⟨_, hs, _⟩ => List.not_mem_nil hs)).symm⟩
    exact (QgramStats.addDocuments_nil _).symm
  | s :: ss, fid, t, t', h, key => by
    rw [countFiles] at h
    obtain ⟨u, hu, h⟩ := Option.bind_eq_some_iff.1 h
    have h' : countFiles (fid + 1) ss (QgramTable.round u (windowKeys s) (fun q => q.addDocuments [fid])) = some t' := h
    have hu' : countWindows (windowKeys s) t = some u := hu
    obtain ⟨hget, hkeys⟩ := countFiles_get h' key
    obtain ⟨hwindows, hukeys⟩ := countWindows_get hu' key
    -- the file joins the documents of its keys
    have hround : get {} (QgramTable.round u (windowKeys s) (fun q => q.addDocuments [fid])) key =
        (get {} u key).addDocuments (if key ∈ windowKeys s then [fid] else []) := by
      rw [QgramTable.get_round u _ _ _ (fun hin => hukeys.2 (Or.inr hin))]
      split
      · rfl
      · rw [QgramStats.addDocuments_nil]
    constructor
    · rw [hget, hround, hwindows, count_windowKeys, documentsFrom_cons, List.map_cons, List.sum_cons]
      simp [QgramStats.addDocuments, QgramStats.addOccurrences, Nat.add_assoc]
    · rw [hkeys, QgramTable.keys_round, hukeys, or_assoc]
      refine or_congr_right ⟨?_, ?_⟩
      · rintro (hin | ⟨r, hr, hin⟩)
        · exact ⟨s, List.mem_cons_self, hin⟩
        · exact ⟨r, List.mem_cons_of_mem s hr, hin⟩
      · rintro ⟨r, hr, hin⟩
        rcases List.mem_cons.1 hr with rfl | hr
        · exact Or.inl hin
        · exact Or.inr ⟨r, hr, hin⟩

/-! ## The chunks -/

/-- **One chunk inside its file.** -/
theorem countChunk_get {I : IndexData} (ci : Nat) {z : Chunk} (hz : z.InFile I)
    (hlisted : ∀ key ∈ windowKeys (I.view z), key ∈ keys I.exactQgrams) :
    (∀ key, (countChunk I ci z).stats key = (I.stats key).addChunks (if key ∈ windowKeys (I.view z) then [ci] else [])) ∧
      keys (countChunk I ci z).exactQgrams = keys I.exactQgrams ∧
      (∀ b, (countChunk I ci z).hashChunkIds b = I.hashChunkIds b ++ if inBucket I b z then [ci] else []) ∧
      ∀ b, (countChunk I ci z).hashChunkFreq b = I.hashChunkFreq b + (if inBucket I b z then [ci] else []).length := by
  obtain ⟨hfile, hbegin, hend⟩ := hz
  have hbucket : ∀ b, ((qgrams (I.view z)).map (· % 65536)).dedup.contains b = inBucket I b z := by
    intro b
    rw [Bool.eq_iff_iff, List.contains_iff_mem, List.mem_dedup, List.mem_map, inBucket, List.any_eq_true]
    exact exists_congr (fun h => and_congr_right (fun _ => beq_iff_eq.symm))
  unfold countChunk
  dsimp only
  rw [if_neg (by omega)]
  refine ⟨fun key => ?_, QgramTable.keys_round I.exactQgrams (windowKeys (I.view z)) (fun q => q.addChunks [ci]),
    fun b => ?_, fun b => ?_⟩
  · refine (QgramTable.get_round I.exactQgrams (windowKeys (I.view z)) (fun q => q.addChunks [ci]) key (hlisted key)).trans ?_
    split
    · rfl
    · exact (QgramStats.addChunks_nil _).symm
  · dsimp only
    rw [hbucket]
    split
    · rfl
    · exact (List.append_nil _).symm
  · dsimp only
    rw [hbucket]
    split <;> rfl

def numbered (p : Chunk → Bool) (cs : List (Chunk × Nat)) : List Nat := (cs.filter (fun c => p c.1)).map Prod.snd

theorem numbered_cons (p : Chunk → Bool) (c : Chunk × Nat) (cs : List (Chunk × Nat)) :
    numbered p (c :: cs) = (if p c.1 then [c.2] else []) ++ numbered p cs := by
  unfold numbered
  rw [List.filter_cons]
  split <;> rfl

/-- **The second pass**: chunks, under every key and in every bucket. -/
theorem countChunks_get : ∀ (cs : List (Chunk × Nat)) {I : IndexData}, (∀ c ∈ cs, c.1.InFile I) →
    (∀ c ∈ cs, ∀ key ∈ windowKeys (I.view c.1), key ∈ keys I.exactQgrams) →
      (∀ key, (cs.foldl (fun I c => countChunk I c.2 c.1) I).stats key =
        (I.stats key).addChunks (numbered (fun z => !(keyPositions (I.view z) key).isEmpty) cs)) ∧
      (∀ b, (cs.foldl (fun I c => countChunk I c.2 c.1) I).hashChunkIds b = I.hashChunkIds b ++ numbered (inBucket I b) cs) ∧
      ∀ b, (cs.foldl (fun I c => countChunk I c.2 c.1) I).hashChunkFreq b =
        I.hashChunkFreq b + (numbered (inBucket I b) cs).length
  | [], I, _, _ => ⟨fun _ => (QgramStats.addChunks_nil _).symm, fun _ => (List.append_nil _).symm, fun _ => rfl⟩
  | c :: cs, I, hin, hlisted => by
    obtain ⟨hstats, hkeys, hids, hfreq⟩ := countChunk_get c.2 (hin c List.mem_cons_self) (hlisted c List.mem_cons_self)
    obtain ⟨e, f, g, hframe⟩ := countChunk_frame I c.2 c.1
    have hview : (countChunk I c.2 c.1).view = I.view := by rw [hframe]; rfl
    have hin' : ∀ d ∈ cs, d.1.InFile (countChunk I c.2 c.1) := by
      intro d hd
      rw [hframe]
      exact hin d (List.mem_cons_of_mem c hd)
    obtain ⟨h1, h2, h3⟩ := countChunks_get cs hin' (fun d hd => by
      rw [hview, hkeys]
      exact hlisted d (List.mem_cons_of_mem c hd))
    have hbucket : inBucket (countChunk I c.2 c.1) = inBucket I := by
      funext b z
      unfold inBucket
      rw [hview]
    refine ⟨fun key => ?_, fun b => ?_, fun b => ?_⟩
    · rw [List.foldl_cons, h1, hstats, hview, QgramStats.addChunks_append, numbered_cons]
      by_cases hkey : key ∈ windowKeys (I.view c.1)
      · rw [if_pos hkey, if_pos (mem_windowKeys.1 hkey)]
      · rw [if_neg hkey, if_neg (fun h => hkey (mem_windowKeys.2 h))]
    · rw [List.foldl_cons, h2, hids, hbucket, numbered_cons, List.append_assoc]
    · rw [List.foldl_cons, h3, hfreq, hbucket, numbered_cons, List.length_append, Nat.add_assoc]

theorem numbered_zipIdx (p : Chunk → Bool) (zs : List Chunk) :
    numbered p zs.zipIdx = (List.range zs.length).filter (fun ci => zs[ci]?.any p) := by
  rw [List.range_eq_range']
  exact filter_zipIdx p zs 0

theorem documentsFrom_zero (ss : List Bytes) (key : UInt32) :
    documentsFrom 0 ss key = (List.range ss.length).filter (fun fid => !(keyPositions (ss.getD fid []) key).isEmpty) := by
  rw [List.range_eq_range']
  refine (filter_zipIdx (fun s => !(keyPositions s key).isEmpty) ss 0).trans (List.filter_congr (fun fid hfid => ?_))
  obtain ⟨-, hlt⟩ := List.mem_range'_1.1 hfid
  rw [Nat.sub_zero, List.getD_eq_getElem?_getD, List.getElem?_eq_getElem (by omega)]
  rfl

/-! ## Both passes -/

theorem rebuildPlannerStats_ready {I : IndexData} (hready : (rebuildPlannerStats I).plannerStatsReady = true) :
    ∃ t, countFiles 0 I.loaded [] = some t ∧ rebuildPlannerStats I =
      { I.chunks.zipIdx.foldl (fun I c => countChunk I c.2 c.1)
          { I with exactQgrams := t, hashChunkFreq := fun _ => 0, hashChunkIds := fun _ => [], plannerStatsReady := false }
        with plannerStatsReady := true } := by
  unfold rebuildPlannerStats at hready ⊢
  dsimp only at hready ⊢
  split at hready
  · exact nomatch hready
  rename_i hcap
  rw [if_neg hcap]
  split at hready
  · exact nomatch hready
  rename_i t ht
  exact ⟨t, ht, rfl⟩

/-- **What ready statistics are**, key by key and bucket by bucket, when every chunk lies in its file. -/
theorem rebuildPlannerStats_get {I : IndexData} (hin : ∀ z ∈ I.chunks, z.InFile I)
    (hready : (rebuildPlannerStats I).plannerStatsReady = true) :
    (∀ key, (rebuildPlannerStats I).stats key =
      ((({} : QgramStats).addOccurrences (I.loaded.map (fun s => (keyPositions s key).length)).sum).addDocuments
        (documentsFrom 0 I.loaded key)).addChunks (numbered (fun z => !(keyPositions (I.view z) key).isEmpty) I.chunks.zipIdx)) ∧
      (∀ b, (rebuildPlannerStats I).hashChunkIds b = numbered (inBucket I b) I.chunks.zipIdx) ∧
      ∀ b, (rebuildPlannerStats I).hashChunkFreq b = (numbered (inBucket I b) I.chunks.zipIdx).length := by
  obtain ⟨t, ht, hrebuilt⟩ := rebuildPlannerStats_ready hready
  rw [hrebuilt]
  have hfiles := countFiles_get ht
  -- a window of a chunk is one of its file, which the first pass has seen
  have hlisted : ∀ c ∈ I.chunks.zipIdx, ∀ key ∈ windowKeys (I.view c.1), key ∈ keys t := by
    intro c hc key hkey
    obtain ⟨hfile, -⟩ := hin c.1 (List.mem_of_getElem? (List.mem_zipIdx_iff_getElem?.1 hc))
    refine (hfiles key).2.2 (Or.inr ⟨I.data c.1.fileId, ?_, windowKeys_slice hkey⟩)
    unfold IndexData.data
    rw [List.getD_eq_getElem?_getD, List.getElem?_eq_getElem hfile]
    exact List.getElem_mem hfile
  obtain ⟨hstats, hids, hfreq⟩ := countChunks_get I.chunks.zipIdx
    (I := { I with exactQgrams := t, hashChunkFreq := fun _ => 0, hashChunkIds := fun _ => [], plannerStatsReady := false })
    (fun c hc => hin c.1 (List.mem_of_getElem? (List.mem_zipIdx_iff_getElem?.1 hc))) hlisted
  refine ⟨fun key => (hstats key).trans ?_, hids, fun b => (hfreq b).trans (Nat.zero_add _)⟩
  exact congrArg (fun q => QgramStats.addChunks q _) (hfiles key).1

/-- **Statistics that are ready are exact**, when every chunk lies in its file. -/
theorem rebuildPlannerStats_exact (I : IndexData) (hin : ∀ z ∈ I.chunks, z.InFile I)
    (hready : (rebuildPlannerStats I).plannerStatsReady = true) : StatsExact (rebuildPlannerStats I) := by
  obtain ⟨hstats, hids, hfreq⟩ := rebuildPlannerStats_get hin hready
  obtain ⟨e, f, g, r, hframe⟩ := rebuildPlannerStats_frame I
  have hsame : (rebuildPlannerStats I).loaded = I.loaded ∧ (rebuildPlannerStats I).chunks = I.chunks ∧
      (rebuildPlannerStats I).data = I.data ∧ (rebuildPlannerStats I).view = I.view ∧
      inBucket (rebuildPlannerStats I) = inBucket I := by
    rw [hframe]
    exact ⟨rfl, rfl, rfl, rfl, rfl⟩
  obtain ⟨hloaded, hchunks, hdata, hview, hbucket⟩ := hsame
  refine { occurrences := fun key => ?_, documentIds := fun key => ?_, documentFrequency := fun key => ?_
           chunkIds := fun key => ?_, chunkFrequency := fun key => ?_, hashChunkIds := fun b => ?_, hashChunkFreq := fun b => ?_ }
  · rw [hstats, hloaded]
    exact Nat.zero_add _
  · rw [hstats, hloaded, hdata]
    exact documentsFrom_zero I.loaded key
  · rw [hstats]
    exact Nat.zero_add _
  · rw [hstats, hchunks, hview]
    exact numbered_zipIdx (fun z => !(keyPositions (I.view z) key).isEmpty) I.chunks
  · rw [hstats]
    exact Nat.zero_add _
  · rw [hids, hchunks, hbucket]
    exact numbered_zipIdx (inBucket I b) I.chunks
  · rw [hfreq, hids]

def overlappingIndex : IndexData :=
  { opt := {}, loaded := [[97, 98, 99, 97, 98, 99]]
    chunks := [{ fileId := 0, coreBegin := 0, coreEnd := 2, extEnd := 6 }, { fileId := 0, coreBegin := 2, coreEnd := 6, extEnd := 6 }] }

theorem rebuildPlannerStats_exact_overlapping : overlappingIndex.chunks.length = 2 ∧
    StatsExact (rebuildPlannerStats overlappingIndex) :=
  ⟨rfl, rebuildPlannerStats_exact overlappingIndex
    (fun z hz => by
      rcases List.mem_pair.1 hz with rfl | rfl
      · exact ⟨by decide, by decide, by decide⟩
      · exact ⟨by decide, by decide, by decide⟩)
    (by decide +kernel)⟩

end Pergrep
