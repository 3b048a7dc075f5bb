import Pyrust.SetTailReplay

/-!
# Runs of table operations

A set table lives through insertions of identities that it does not hold, removals
of identities that it does, and the two bulk adjustments, in any order. What holds
of the table after such a run is read off the table of hashed identities that it is
tied to.
-/

set_option autoImplicit false

namespace Pyrust.SetTableRuns
open Pyrust.DictProbeIndex Pyrust.SetProbe Pyrust.SetProbeInvariant Pyrust.SetMirror Pyrust.SetOps
open Pyrust.SetReplay Pyrust.SetLazy Pyrust.SetTailReplay
open Pyrust.DictProbeInvariant (Distinct)

universe u

inductive TableOp where
  | insert (entry : SetProbeEntry)
  | remove (pythonHash : UInt64) (replayId : ℕ)
  | prepareMerge (additionalUsed : ℕ)
  | finishDifferenceUpdate
  deriving DecidableEq, Repr

def tableStep (s : PySetProbeSnapshot) : TableOp → Option PySetProbeSnapshot
  | .insert entry => s.insert entry
  | .remove hash replayId => s.remove hash replayId
  | .prepareMerge n => s.prepareMerge n
  | .finishDifferenceUpdate => s.finishDifferenceUpdate

/-- The loop of `collect_candidate_keys`; `none` is a key that is not there, or no end. -/
def scanCandidates {K : Type u} (s : PySetProbeSnapshot) (source : List K) (hash : UInt64) :
    List ℕ → Option (List K)
  | [] => none
  | candidate::rest =>
    match s.slot candidate with
    | .empty => some []
    | .dummy => scanCandidates s source hash rest
    | .entry replayId =>
      if PySetProbeSnapshot.hashOf s.hashes replayId = hash then do
        let key ← source[replayId]?
        return key::(← scanCandidates s source hash rest)
      else scanCandidates s source hash rest

/-- `collect_candidate_keys`. -/
def collectCandidateKeys {K : Type u} (s : PySetProbeSnapshot) (source : List K)
    (hash : UInt64) : Option (List K) :=
  scanCandidates s source hash (probeOrder s.size hash)

/-! ## What a table is to hold -/

/-- The live entries after an operation. -/
def liveAfter (live : List SetProbeEntry) : TableOp → List SetProbeEntry
  | .insert entry => live ++ [entry]
  | .remove hash replayId => live.erase ⟨hash, replayId⟩
  | .prepareMerge _ => live
  | .finishDifferenceUpdate => live

/-- An identity is inserted once and removed, under its hash, while it is live. -/
def Admissible (live : List SetProbeEntry) : TableOp → Prop
  | .insert entry => entry.replayId ∉ live.map SetProbeEntry.replayId
  | .remove hash replayId => ⟨hash, replayId⟩ ∈ live
  | .prepareMerge _ => True
  | .finishDifferenceUpdate => True

def AdmissibleAlong : List TableOp → List SetProbeEntry → Prop
  | [], _ => True
  | op::ops, live => Admissible live op ∧ AdmissibleAlong ops (liveAfter live op)

/-- The probe sequence of the entry's hash comes to its slot before any empty one. -/
def Found (s : PySetProbeSnapshot) (entry : SetProbeEntry) : Prop :=
  ∃ before slot after, probeOrder s.size entry.pythonHash = before ++ slot::after ∧
    s.slot slot = .entry entry.replayId ∧ ∀ p ∈ before, s.slot p ≠ .empty

/-- The table holds exactly these entries, each in one slot, below its load, and every loop over
it ends. -/
structure Exact (s : PySetProbeSnapshot) (live : List SetProbeEntry) : Prop where
  load : s.fill*5 < (s.size-1)*3
  fill : s.fill = s.slots.countP (fun slot => !slot.isEmpty)
  used : s.used = live.length
  slots : s.live.Perm (live.map SetProbeEntry.replayId)
  once : s.live.Nodup
  hash : ∀ entry ∈ live, PySetProbeSnapshot.hashOf s.hashes entry.replayId = entry.pythonHash
  found : ∀ entry ∈ live, Found s entry
  insertion : ∀ hash, (s.insertionSlot hash).isSome = true
  lookup : ∀ {K : Type} (source : List K) (hash : UInt64),
    (∀ entry ∈ live, entry.replayId < source.length) →
    ∃ keys, collectCandidateKeys s source hash = some keys ∧ ∀ key, key ∈ keys ↔
      ∃ entry ∈ live, entry.pythonHash = hash ∧ source[entry.replayId]? = some key

/-! ## Tied tables -/

section tied
variable {K : Type u} [DictEntry K] {s : PySetProbeSnapshot} {t : SetTable K} {ids : List ℕ}
  {keys : List K}

/-- The entries of keys under identities. -/
def entriesOf (ids : List ℕ) (keys : List K) : List SetProbeEntry :=
  List.zipWith (fun id key => ⟨pythonHash key, id⟩) ids keys

theorem mem_entriesOf {entry : SetProbeEntry} : entry ∈ entriesOf ids keys ↔
    ∃ key, Named ids keys entry.replayId key ∧ pythonHash key = entry.pythonHash := by
  rw [List.mem_iff_getElem?]
  simp only [entriesOf, List.getElem?_zipWith_eq_some]
  constructor
  · rintro ⟨i, id, key, hi, hk, rfl⟩
    exact ⟨key, ⟨i, hi, hk⟩, rfl⟩
  · rintro ⟨key, ⟨i, hi, hk⟩, hh⟩
    refine ⟨i, _, key, hi, hk, ?_⟩
    rw [hh]

theorem entriesOf_ids (h : ids.length = keys.length) :
    (entriesOf ids keys).map SetProbeEntry.replayId = ids := by
  refine List.ext_getElem (by simp [entriesOf, h]) fun i hi hi' => ?_
  simp [entriesOf]

theorem entriesOf_own (live : List SetProbeEntry) :
    entriesOf (live.map SetProbeEntry.replayId) live = live := by
  induction live with
  | nil => rfl
  | cons entry live ih => exact congrArg (entry::·) ih

theorem named_entry {id : ℕ} {key : K} (h : Named ids keys id key) :
    (⟨pythonHash key, id⟩ : SetProbeEntry) ∈ entriesOf ids keys :=
  mem_entriesOf.mpr ⟨key, h, rfl⟩

theorem slot_named (h : Tied s t ids keys) (p : ℕ) :
    (∀ key, t.slot p = .entry key → ∃ id, s.slot p = .entry id ∧ Named ids keys id key) ∧
      ∀ id, s.slot p = .entry id → ∃ key, t.slot p = .entry key ∧ Named ids keys id key := by
  have hp := h.mirrors.slot p
  generalize hs : s.toSetTable.slot p = slot at hp
  generalize t.slot p = slot' at hp
  cases hp with
  | empty => simp
  | dummy => simp
  | entry hab =>
    constructor
    · rintro key ⟨⟩
      exact ⟨_, rfl, hab⟩
    · rintro id ⟨⟩
      exact ⟨_, rfl, hab⟩

theorem empty_slot (h : Tied s t ids keys) (p : ℕ) : s.slot p = .empty ↔ t.slot p = .empty := by
  rw [← SetProbeInvariant.isEmpty_iff, ← SetProbeInvariant.isEmpty_iff, h.mirrors.isEmpty]

theorem visited_empty (h : Tied s t ids keys) (hash : UInt64) :
    ∃ p ∈ probeOrder s.size hash, s.slot p = .empty := by
  have hfill : t.fill < t.size := by
    have hl := h.holds.loaded
    have h8 := h.holds.sound.minSize
    rw [Loaded] at hl
    omega
  obtain ⟨p, hp, he⟩ := h.holds.sound.empty_visited hfill hash
  refine ⟨p, ?_, (empty_slot h p).mpr he⟩
  rw [h.mirrors.size]
  exact hp

variable [BEq K] [EquivBEq K]

omit [DictEntry K] in
/-- Keys that are distinct have one identity each. -/
theorem named_functional (hd : Distinct keys) {id id' : ℕ} {key : K} (h : Named ids keys id key)
    (h' : Named ids keys id' key) : id = id' := by
  obtain ⟨i, hi, hk⟩ := h
  obtain ⟨j, hj, hk'⟩ := h'
  obtain rfl := DictProbeInvariant.distinct_position keys i key hd hk j key hk' (BEq.refl key)
  exact Option.some.inj (hi.symm.trans hj)

theorem found_entry (h : Tied s t ids keys) (hd : Distinct keys) {entry : SetProbeEntry}
    (hmem : entry ∈ entriesOf ids keys) : Found s entry := by
  obtain ⟨key, hnamed, hhash⟩ := mem_entriesOf.mp hmem
  obtain ⟨i, -, hk⟩ := id hnamed
  obtain ⟨p, hp⟩ := live_slot t key (h.holds.live.mem_iff.mpr (List.mem_of_getElem? hk))
  obtain ⟨id, hid, hnamed'⟩ := (slot_named h p).1 key hp
  obtain ⟨before, after, hsplit, hbefore⟩ := h.holds.sound.reach p key hp
  refine ⟨before, p, after, ?_, ?_, fun q hq he => hbefore q hq ((empty_slot h q).mp he)⟩
  · rw [h.mirrors.size, ← hhash]
    exact hsplit
  · rw [hid, named_functional hd hnamed' hnamed]

/-- The live slots hold the identities, each once. -/
theorem live_ids (h : Tied s t ids keys) (hd : Distinct keys) : s.live.Perm ids := by
  classical
  have hid : ∃ f : K → ℕ, ∀ id key, Named ids keys id key → f key = id := by
    refine ⟨fun key => if h : ∃ id, Named ids keys id key then h.choose else 0, ?_⟩
    intro id key hn
    have hex : ∃ id, Named ids keys id key := ⟨id, hn⟩
    dsimp only
    rw [dif_pos hex]
    exact named_functional hd hex.choose_spec hn
  obtain ⟨f, hf⟩ := hid
  have hlive : s.live = t.live.map f := by
    rw [← List.forall₂_eq_eq_eq, List.forall₂_map_right_iff]
    exact h.mirrors.live.imp fun id key hab => (hf id key hab).symm
  have hids : keys.map f = ids := by
    refine List.ext_getElem (by rw [List.length_map, h.len]) fun i hi hi' => ?_
    rw [List.getElem_map]
    rw [List.length_map] at hi
    exact hf _ _ ⟨i, List.getElem?_eq_getElem hi', List.getElem?_eq_getElem hi⟩
  rw [hlive, ← hids]
  exact h.holds.live.map f

end tied

/-- The slot is visited along the order before any empty one, and its entry has the hash. -/
def Candidate (s : PySetProbeSnapshot) (hash : UInt64) (order : List ℕ) (id : ℕ) : Prop :=
  ∃ before p after, order = before ++ p::after ∧ (∀ q ∈ before, s.slot q ≠ .empty) ∧
    s.slot p = .entry id ∧ PySetProbeSnapshot.hashOf s.hashes id = hash

theorem candidate_cons {s : PySetProbeSnapshot} {hash : UInt64} {p : ℕ} {order : List ℕ}
    {id : ℕ} (hp : s.slot p ≠ .empty) : Candidate s hash (p::order) id ↔
      (s.slot p = .entry id ∧ PySetProbeSnapshot.hashOf s.hashes id = hash) ∨
        Candidate s hash order id := by
  constructor
  · rintro ⟨before, q, after, hsplit, hbefore, hq, hhash⟩
    cases before with
    | nil =>
      obtain ⟨rfl, -⟩ := List.cons.inj hsplit
      exact .inl ⟨hq, hhash⟩
    | cons r before =>
      rw [List.cons_append] at hsplit
      exact .inr ⟨before, q, after, (List.cons.inj hsplit).2,
        fun r' hr => hbefore r' (by simp [hr]), hq, hhash⟩
  · rintro (⟨hq, hhash⟩ | ⟨before, q, after, rfl, hbefore, hq, hhash⟩)
    · exact ⟨[], p, order, rfl, by simp, hq, hhash⟩
    · refine ⟨p::before, q, after, rfl, fun r hr => ?_, hq, hhash⟩
      rcases List.mem_cons.mp hr with rfl | hr
      · exact hp
      · exact hbefore r hr

/-- A loop over candidates that comes to an empty slot ends, with the keys of the candidates. -/
theorem scanCandidates_spec {K : Type u} (s : PySetProbeSnapshot) {source : List K}
    (hash : UInt64) (hsource : ∀ p id, s.slot p = .entry id → id < source.length)
    (order : List ℕ) (h : ∃ p ∈ order, s.slot p = .empty) :
    ∃ keys, scanCandidates s source hash order = some keys ∧ ∀ key, key ∈ keys ↔
      ∃ id, Candidate s hash order id ∧ source[id]? = some key := by
  induction order with
  | nil =>
    obtain ⟨p, hp, -⟩ := h
    cases hp
  | cons p order ih =>
    have hrest : s.slot p ≠ .empty → ∃ q ∈ order, s.slot q = .empty := by
      intro hp
      obtain ⟨q, hq, he⟩ := h
      rcases List.mem_cons.mp hq with rfl | hq
      · exact absurd he hp
      · exact ⟨q, hq, he⟩
    cases hslot : s.slot p with
    | empty =>
      refine ⟨[], by rw [scanCandidates, hslot], fun key => ?_⟩
      simp only [List.not_mem_nil, false_iff]
      rintro ⟨id, ⟨before, q, after, hsplit, hbefore, hq, -⟩, -⟩
      cases before with
      | nil =>
        obtain ⟨rfl, -⟩ := List.cons.inj hsplit
        rw [hslot] at hq
        cases hq
      | cons r before =>
        rw [List.cons_append] at hsplit
        obtain ⟨rfl, -⟩ := List.cons.inj hsplit
        exact hbefore p (by simp) hslot
    | dummy =>
      have hne : s.slot p ≠ .empty := by simp [hslot]
      obtain ⟨keys, hrun, hkeys⟩ := ih (hrest hne)
      refine ⟨keys, by rw [scanCandidates, hslot]; exact hrun, fun key => ?_⟩
      simp only [hkeys, candidate_cons hne, hslot, reduceCtorEq, false_and, false_or]
    | entry id =>
      have hne : s.slot p ≠ .empty := by simp [hslot]
      obtain ⟨keys, hrun, hkeys⟩ := ih (hrest hne)
      obtain ⟨stored, hget⟩ : ∃ stored, source[id]? = some stored :=
        ⟨_, List.getElem?_eq_getElem (hsource p id hslot)⟩
      by_cases hhash : PySetProbeSnapshot.hashOf s.hashes id = hash
      · refine ⟨stored::keys, ?_, fun key => ?_⟩
        · rw [scanCandidates, hslot]
          simp only [if_pos hhash, hget, hrun, bind, Option.bind_some, pure]
        · rw [List.mem_cons, hkeys]
          simp only [candidate_cons hne, hslot, SetSlot.entry.injEq]
          constructor
          · rintro (rfl | ⟨id', hc, hk⟩)
            · exact ⟨id, .inl ⟨rfl, hhash⟩, hget⟩
            · exact ⟨id', .inr hc, hk⟩
          · rintro ⟨id', ⟨rfl, -⟩ | hc, hk⟩
            · rw [hget, Option.some.injEq] at hk
              exact .inl hk.symm
            · exact .inr ⟨id', hc, hk⟩
      · refine ⟨keys, ?_, fun key => ?_⟩
        · rw [scanCandidates, hslot]
          simp only [if_neg hhash]
          exact hrun
        · rw [hkeys]
          simp only [candidate_cons hne, hslot, SetSlot.entry.injEq]
          constructor
          · rintro ⟨id', hc, hk⟩
            exact ⟨id', .inr hc, hk⟩
          · rintro ⟨id', ⟨rfl, hh⟩ | hc, hk⟩
            · exact absurd hh hhash
            · exact ⟨id', hc, hk⟩

theorem countP_mirrors {α : Type} {β : Type u} {R : α → β → Prop} {l : List (SetSlot α)}
    {l' : List (SetSlot β)} (h : List.Forall₂ (SlotRel R) l l') :
    l.countP (fun slot => !slot.isEmpty) = l'.countP fun slot => !slot.isEmpty := by
  induction h with
  | nil => rfl
  | cons hab _ ih =>
    rw [List.countP_cons, List.countP_cons, ih]
    cases hab <;> rfl

/-- What a tied table holds. -/
theorem exact_of_tied {K : Type u} [BEq K] [EquivBEq K] [DictEntry K] {s : PySetProbeSnapshot}
    {t : SetTable K} {ids : List ℕ} {keys : List K} (h : Tied s t ids keys)
    (hd : Distinct keys) : Exact s (entriesOf ids keys) := by
  have hperm := live_ids h hd
  have hown : ∀ p id, s.slot p = .entry id →
      ∃ entry ∈ entriesOf ids keys, entry.replayId = id := by
    intro p id hp
    obtain ⟨key, -, hnamed⟩ := (slot_named h p).2 id hp
    exact ⟨_, named_entry hnamed, rfl⟩
  have hhash : ∀ entry ∈ entriesOf ids keys,
      PySetProbeSnapshot.hashOf s.hashes entry.replayId = entry.pythonHash := by
    intro entry hmem
    obtain ⟨key, hnamed, hkey⟩ := mem_entriesOf.mp hmem
    exact (h.hashes _ _ hnamed).trans hkey
  constructor
  · rw [h.mirrors.fill, h.mirrors.size]
    exact h.holds.loaded
  · rw [h.mirrors.fill, h.holds.sound.fillCount, countP_mirrors h.mirrors.slots]
  · rw [h.mirrors.used, h.holds.sound.usedCount, h.holds.live.length_eq, entriesOf,
      List.length_zipWith, h.len, min_self]
  · rw [entriesOf_ids h.len]
    exact hperm
  · exact hperm.nodup_iff.mpr h.nodup
  · exact hhash
  · exact fun entry hmem => found_entry h hd hmem
  · exact fun hash => scanInsert_isSome _ _ _ (visited_empty h hash)
  · intro K source hash hsource
    have hin : ∀ p id, s.slot p = .entry id → id < source.length := by
      intro p id hp
      obtain ⟨entry, hmem, rfl⟩ := hown p id hp
      exact hsource entry hmem
    obtain ⟨keys, hrun, hkeys⟩ := scanCandidates_spec s hash hin _ (visited_empty h hash)
    refine ⟨keys, hrun, fun key => (hkeys key).trans ?_⟩
    constructor
    · rintro ⟨id, ⟨before, p, after, -, -, hp, hh⟩, hk⟩
      obtain ⟨entry, hmem, rfl⟩ := hown p id hp
      exact ⟨entry, hmem, (hhash entry hmem).symm.trans hh, hk⟩
    · rintro ⟨entry, hmem, rfl, hk⟩
      obtain ⟨before, p, after, hsplit, hp, hbefore⟩ := found_entry h hd hmem
      exact ⟨_, ⟨before, p, after, hsplit, hbefore, hp, hhash entry hmem⟩, hk⟩

/-! ## Runs -/

section runs
variable {s : PySetProbeSnapshot} {live : List SetProbeEntry}

theorem distinct_of_ids (h : (live.map SetProbeEntry.replayId).Nodup) : Distinct live := by
  rw [List.Nodup, List.pairwise_map] at h
  refine h.imp fun {x y} hne => ?_
  rw [beq_eq_false_iff_ne]
  rintro rfl
  exact hne rfl

theorem prepareMerge_zero (h : Exact s live) : s.prepareMerge 0 = some s := by
  have hload := h.load
  have hno : ¬(s.toSetTable.size-1)*3 ≤ (s.fill+0)*5 := not_le.mpr hload
  rw [PySetProbeSnapshot.prepareMerge, SetTable.prepareMerge, if_neg hno]
  rfl

/-- The table of the live entries under their own identities. -/
abbrev TiedTo (s : PySetProbeSnapshot) (live : List SetProbeEntry) : Prop :=
  ∃ t : SetTable SetProbeEntry, Tied s t (live.map SetProbeEntry.replayId) live

theorem exact_of_tiedTo (h : TiedTo s live) : Exact s live := by
  obtain ⟨t, h⟩ := h
  have hexact := exact_of_tied h (distinct_of_ids h.nodup)
  rw [entriesOf_own] at hexact
  exact hexact

/-- An admissible operation ends and keeps the table tied to the live entries. -/
theorem tableStep_tied (h : TiedTo s live) {op : TableOp} (hop : Admissible live op) :
    ∃ s', tableStep s op = some s' ∧ TiedTo s' (liveAfter live op) := by
  have hexact := exact_of_tiedTo h
  obtain ⟨t, h⟩ := h
  cases op with
  | insert entry =>
    obtain ⟨s', t', hrun, -, h'⟩ := tied_insert h entry.replayId entry hop
    exact ⟨s', hrun, t', by simpa [liveAfter] using h'⟩
  | remove hash id =>
    have hmem : (⟨hash, id⟩ : SetProbeEntry) ∈ live := hop
    have hget : live[live.idxOf ⟨hash, id⟩]? = some ⟨hash, id⟩ := List.getElem?_idxOf hmem
    obtain ⟨s', t', hrun, -, h'⟩ := tied_remove h (distinct_of_ids h.nodup)
      (live.idxOf ⟨hash, id⟩) id ⟨hash, id⟩ (by rw [List.getElem?_map, hget]; rfl) hget
    rw [List.eraseIdx_map, List.eraseIdx_idxOf_eq_erase] at h'
    exact ⟨s', hrun, t', h'⟩
  | prepareMerge n =>
    by_cases hn : n = 0
    · subst hn
      exact ⟨s, prepareMerge_zero hexact, t, h⟩
    · obtain ⟨s', t', hrun, -, h'⟩ := tied_merge h n (Nat.pos_of_ne_zero hn)
      exact ⟨s', hrun, t', h'⟩
  | finishDifferenceUpdate =>
    obtain ⟨s', t', hrun, -, h'⟩ := tied_cleanup h
    exact ⟨s', hrun, t', h'⟩

theorem run_tied (ops : List TableOp) (h : TiedTo s live) (hops : AdmissibleAlong ops live) :
    ∃ s', ops.foldlM tableStep s = some s' ∧ TiedTo s' (ops.foldl liveAfter live) := by
  induction ops generalizing s live with
  | nil => exact ⟨s, rfl, h⟩
  | cons op ops ih =>
    obtain ⟨s1, h1, htied⟩ := tableStep_tied h hops.1
    obtain ⟨s2, h2, hlast⟩ := ih htied hops.2
    refine ⟨s2, ?_, hlast⟩
    rw [List.foldlM_cons, h1]
    exact h2

end runs

/-- After every run of admissible operations on a fresh table no loop has failed to end, and the
table holds exactly the live entries. -/
theorem set_table_exact (size : ℕ) (hsize : ∃ k, max size setProbeMinsize = 2^k)
    (ops : List TableOp) (hops : AdmissibleAlong ops []) :
    ∃ s, ops.foldlM tableStep (PySetProbeSnapshot.withTableSize size) = some s ∧
      Exact s (ops.foldl liveAfter []) := by
  obtain ⟨s, hrun, htied⟩ := run_tied ops ⟨_, fresh_tied size hsize⟩ hops
  exact ⟨s, hrun, exact_of_tiedTo htied⟩

/-- Two entries of one hash, of which the first goes and comes back. -/
def tableRun : List TableOp :=
  [.insert ⟨9, 0⟩, .insert ⟨9, 1⟩, .remove 9 0, .prepareMerge 3, .insert ⟨17, 0⟩,
    .finishDifferenceUpdate]

theorem set_table_exact_run :
    ∃ s, tableRun.foldlM tableStep (PySetProbeSnapshot.withTableSize 8) = some s ∧
      Exact s (tableRun.foldl liveAfter []) :=
  set_table_exact 8 ⟨3, rfl⟩ tableRun (by simp [tableRun, AdmissibleAlong, Admissible, liveAfter])

/-- The table that a set shows of itself holds exactly its keys, under their places. -/
theorem snapshot_exact {K : Type u} [BEq K] [EquivBEq K] [DictEntry K] (capacity : ℕ)
    (ops : List (Op K)) :
    ∃ s, pythonHashSnapshot (lazyRun capacity ops) = some s ∧
      Exact s (entriesOf (List.range (lazyRun capacity ops).entries.length)
        (lazyRun capacity ops).entries) := by
  obtain ⟨e, t, -, h⟩ := run_agree ops _ _ _
    (start_agree (withCpythonDictCapacity (K := K) capacity)
      (withCpythonDictCapacity_size capacity) rfl rfl)
  have h : Agree (lazyRun capacity ops) e t := h
  obtain ⟨base, hist, hj⟩ := h.history
  obtain ⟨s, hs, htied⟩ := snapshot_tied (lazyRun capacity ops) t base hist hj
  exact ⟨s, hs, exact_of_tied htied h.distinct⟩

end Pyrust.SetTableRuns
