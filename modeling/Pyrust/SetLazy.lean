import Pyrust.DictLazy
import Pyrust.SetReplay

/-!
# Deferred set journals and eager set tables

Both sets are steps of one history of mutations. A snapshot replays the
journalled part of the history from its baseline; the eager set applied it as
it happened, so both tables are tied to the same table of keys.
-/

set_option autoImplicit false

namespace Pyrust.SetLazy
open Pyrust.DictProbeIndex Pyrust.ReplayOrder
open Pyrust.DictJournal (DictReplayKey)
open Pyrust.SetProbe Pyrust.SetProbeInvariant Pyrust.SetMirror Pyrust.SetOps Pyrust.SetReplay
open Pyrust.DictProbeInvariant (Distinct)

universe u
variable {K : Type u} [DictEntry K]

section tail

/-- Removals of the last key over and over, down to a set of `live` keys. -/
def TailOnly (live : ℕ) : List SetDeferredMutation → Prop
  | [] => True
  | m::ms => m.kind = setMutationRemove ∧ m.position = live+ms.length ∧ TailOnly live ms

theorem tailOnly_of_zipIdx (ms : List SetDeferredMutation) (live start : ℕ)
    (h : ∀ m ∈ ms.zipIdx start, m.1.kind = setMutationRemove ∧
      m.1.position = live+(start+ms.length)-m.2-1) : TailOnly live ms := by
  induction ms generalizing start with
  | nil => trivial
  | cons m ms ih =>
    obtain ⟨hk, hp⟩ := h (m, start) (by simp)
    refine ⟨hk, ?_, ?_⟩
    · simp only [List.length_cons] at hp
      omega
    · apply ih (start+1)
      intro q hq
      obtain ⟨hk, hp⟩ := h q (by simp [hq])
      refine ⟨hk, ?_⟩
      simp only [List.length_cons] at hp
      omega

theorem hasOnlyTailRemovals_tailOnly (ms : List SetDeferredMutation) (live : ℕ)
    (h : hasOnlyTailRemovals ms live = true) : TailOnly live ms := by
  simp only [hasOnlyTailRemovals, Bool.and_eq_true, List.all_eq_true, decide_eq_true_eq] at h
  apply tailOnly_of_zipIdx ms live 0
  intro m hm
  obtain ⟨hk, hp⟩ := h.2 m hm
  exact ⟨hk, by omega⟩

omit [DictEntry K] in
/-- What the undo walk recovers from removals of the last key. -/
theorem undo_tail (ms : List SetDeferredMutation) (state : List (DictReplayKey K))
    (h : TailOnly state.length ms) :
    ms.foldr undoStep { state := state, nextReplayId := state.length } =
      ⟨state++ms.reverse.zipIdx.map (fun m => ⟨none, m.1.pythonHash, false, state.length+m.2⟩),
        ms.zipIdx.map (fun m => (none, some (state.length+(ms.length-m.2-1)))),
        state.length+ms.length⟩ := by
  induction ms with
  | nil => simp
  | cons m ms ih =>
    obtain ⟨hk, hp, ht⟩ := h
    rw [List.foldr_cons, ih ht]
    have hlen : (state++ms.reverse.zipIdx.map (fun m =>
        (⟨none, m.1.pythonHash, false, state.length+m.2⟩ : DictReplayKey K))).length =
        m.position := by simp [hp]
    have hins := List.insertIdx_length_self (x := (⟨none, m.pythonHash, false,
      state.length+ms.length⟩ : DictReplayKey K)) (l := state++ms.reverse.zipIdx.map (fun m =>
        (⟨none, m.1.pythonHash, false, state.length+m.2⟩ : DictReplayKey K)))
    rw [hlen] at hins
    have hshift : (ms.zipIdx 1).map (fun q => ((none : Option (DictReplayKey K)),
        some (state.length+(ms.length+1-q.2-1)))) =
        ms.zipIdx.map (fun q => (none, some (state.length+(ms.length-q.2-1)))) := by
      rw [List.zipIdx_succ, List.map_map]
      apply List.map_congr_left
      intro q _
      simp only [Function.comp, Prod.mk.injEq, Option.some.injEq, true_and]
      omega
    simp only [undoStep, hk, setMutationInsert, setMutationRemove, hins]
    simp [List.zipIdx_append, hshift, Nat.add_assoc]

omit [DictEntry K] in
theorem redo_tail (ms : List SetDeferredMutation) (ids : SetDeferredMutation × ℕ → ℕ)
    (start : ℕ) (x : PySetProbeSnapshot) (hk : ∀ m ∈ ms, m.kind = setMutationRemove) :
    (ms.zip ((ms.zipIdx start).map (fun m =>
      ((none : Option (DictReplayKey K)), some (ids m))))).foldlM redoStep x =
      (ms.zipIdx start).foldlM (fun table m => table.remove m.1.pythonHash (ids m)) x := by
  induction ms generalizing start x with
  | nil => rfl
  | cons m ms ih =>
    have hm := hk m (by simp)
    have hstep : redoStep x (m, ((none : Option (DictReplayKey K)), some (ids (m, start)))) =
        x.remove m.pythonHash (ids (m, start)) := by
      simp [redoStep, hm, setMutationInsert, setMutationRemove]
    rw [List.zipIdx_cons, List.map_cons, List.zip_cons_cons, List.foldlM_cons, List.foldlM_cons,
      hstep]
    cases x.remove m.pythonHash (ids (m, start)) with
    | none => rfl
    | some x => exact ih (start+1) x (fun q hq => hk q (by simp [hq]))

theorem tailOnly_kinds (ms : List SetDeferredMutation) (live : ℕ) (h : TailOnly live ms) :
    ∀ m ∈ ms, m.kind = setMutationRemove := by
  induction ms with
  | nil => simp
  | cons m ms ih => simpa [h.1] using ih h.2.2

theorem enter_keys (keys : List K) (x : PySetProbeSnapshot) :
    keys.zipIdx.foldlM (fun table key => table.insert ⟨pythonHash key.1, key.2⟩) x =
      (setReplayKeys keys 0).foldlM insertReplay x := by
  rw [setReplayKeys_eq, List.foldlM_map]
  rfl

/-- The undo walk and the redo walk, without the shortcut. -/
def replay (mutations : List SetDeferredMutation) (entries : List K) (initialTableSize : ℕ) :
    Option PySetProbeSnapshot := do
  let undone := mutations.foldr undoStep
    { state := setReplayKeys entries 0, nextReplayId := entries.length }
  let table ← undone.state.foldlM insertReplay
    (PySetProbeSnapshot.withTableSize initialTableSize)
  (mutations.zip undone.known).foldlM redoStep table

/-- The shortcut for removals of the last key computes the same table. -/
theorem materialize_eq_replay (ms : List SetDeferredMutation) (entries : List K) (size : ℕ) :
    materialize ms entries size = replay ms entries size := by
  simp only [materialize]
  split
  · rename_i htail
    have ht := hasOnlyTailRemovals_tailOnly ms entries.length htail
    have hlen := setReplayKeys_length entries 0
    have hu := undo_tail ms (setReplayKeys entries 0) (by rw [hlen]; exact ht)
    simp only [hlen] at hu
    simp only [replay, hu, materializeTailRemovals, enter_keys, List.foldlM_append]
    have hredo := redo_tail (K := K) ms (fun m => entries.length+(ms.length-m.2-1)) 0
    cases (setReplayKeys entries 0).foldlM insertReplay
        (PySetProbeSnapshot.withTableSize size) with
    | none => rfl
    | some x =>
      have hph : (placeholders ms entries.length).foldlM PySetProbeSnapshot.insert x =
          (ms.reverse.zipIdx.map (fun m => (⟨none, m.1.pythonHash, false,
            entries.length+m.2⟩ : DictReplayKey K))).foldlM insertReplay x := by
        rw [placeholders, List.foldlM_map, List.foldlM_map]
        rfl
      simp only [Option.bind_eq_bind, Option.bind_some, hph]
      congr 1
      funext y
      exact (hredo y (tailOnly_kinds ms entries.length ht)).symm
  · rfl

end tail

section refinement
variable [BEq K]

def keyTable (base : List K) (size : ℕ) : Option (SetTable K) :=
  base.foldlM (fun t key => t.insert pythonHash key (pythonHash key)) (SetTable.withTableSize size)

/-- The journal of a set tells how its table came about from a baseline. -/
structure Journalled (s : PySet K) (t : SetTable K) (base : List K) (hist : List (Mutation K)) :
    Prop where
  size : ∃ k, max s.initialTableSize setProbeMinsize = 2^k
  valid : ValidAlong hist base
  distinct : Distinct base
  entries : s.entries = hist.foldl keysStep base
  journal : s.mutationJournal = some (hist.map encode) ∨ (s.mutationJournal = none ∧ hist = [])
  table : (keyTable base s.initialTableSize).bind (fun t => hist.foldlM tableStep t) = some t

structure Agree (s : PySet K) (e : EagerSet K) (t : SetTable K) : Prop where
  history : ∃ base hist, Journalled s t base hist
  distinct : Distinct s.entries
  entries : e.entries = s.entries
  tied : Tied e.table t e.ids e.entries
  below : ∀ id ∈ e.ids, id < e.nextId

def lazyApply (s : PySet K) : Mutation K → PySet K
  | .insert key =>
    { s with
      entries := s.entries++[key]
      mutationJournal := s.mutationJournal.map (·++[SetDeferredMutation.inserted]) }
  | m => record { s with entries := keysStep s.entries m } (encode m)

def eagerApply (e : EagerSet K) : Mutation K → Option (EagerSet K)
  | .insert key =>
    (e.table.insert ⟨pythonHash key, e.nextId⟩).map (fun table =>
      ⟨e.entries++[key], e.ids++[e.nextId], e.nextId+1, table⟩)
  | .remove p _ => eagerRemoveIndex e p
  | .merge n => (e.table.prepareMerge n.toNat).map (fun table => { e with table := table })
  | .differenceCleanup =>
    e.table.finishDifferenceUpdate.map (fun table => { e with table := table })

omit [DictEntry K] in
theorem validAlong_append (hist : List (Mutation K)) (m : Mutation K) (keys : List K)
    (h : ValidAlong hist keys) (hm : Valid (hist.foldl keysStep keys) m) :
    ValidAlong (hist++[m]) keys := by
  induction hist generalizing keys with
  | nil => exact ⟨hm, trivial⟩
  | cons n hist ih => exact ⟨h.1, ih _ h.2 hm⟩

omit [BEq K] in
theorem lazyApply_size (s : PySet K) (m : Mutation K) :
    (lazyApply s m).initialTableSize = s.initialTableSize := by
  cases m <;> rfl

omit [BEq K] in
theorem lazyApply_entries (s : PySet K) (m : Mutation K) :
    (lazyApply s m).entries = keysStep s.entries m := by
  cases m <;> rfl

/-- The journal grows with the history, except that a set without a journal
moves its baseline instead. -/
theorem journalled_step (s : PySet K) (t t' : SetTable K) (base : List K)
    (hist : List (Mutation K)) (m : Mutation K) (h : Journalled s t base hist)
    (hd : Distinct s.entries) (hv : Valid s.entries m) (ht : tableStep t m = some t') :
    ∃ base hist, Journalled (lazyApply s m) t' base hist := by
  have hgrow : (lazyApply s m).mutationJournal = some ((hist++[m]).map encode) →
      Journalled (lazyApply s m) t' base (hist++[m]) := by
    intro hj
    refine ⟨by rw [lazyApply_size]; exact h.size, ?_, h.distinct, ?_, Or.inl hj, ?_⟩
    · exact validAlong_append hist m base h.valid (h.entries ▸ hv)
    · rw [lazyApply_entries, h.entries, List.foldl_append]
      rfl
    · rw [lazyApply_size]
      obtain ⟨t0, h0, h1⟩ := Option.bind_eq_some_iff.mp h.table
      simp [h0, h1, List.foldlM_append, ht]
  rcases h.journal with hj | ⟨hj, rfl⟩
  · refine ⟨base, hist++[m], hgrow ?_⟩
    cases m <;> simp [lazyApply, record, hj, encode]
  · cases m with
    | insert key =>
      refine ⟨s.entries++[key], [], h.size, trivial, ?_, rfl, Or.inr ⟨?_, rfl⟩, ?_⟩
      · exact keysStep_distinct s.entries (.insert key) hd hv
      · simp [lazyApply, hj]
      · have he : s.entries = base := h.entries
        have hbase : keyTable base s.initialTableSize = some t := by simpa using h.table
        have hins : t.insert pythonHash key (pythonHash key) = some t' := ht
        rw [lazyApply_size, he]
        simp only [keyTable] at hbase ⊢
        simp [List.foldlM_append, hbase, hins]
    | remove p key => exact ⟨base, [.remove p key], hgrow (by simp [lazyApply, record, hj])⟩
    | merge n => exact ⟨base, [.merge n], hgrow (by simp [lazyApply, record, hj])⟩
    | differenceCleanup =>
      exact ⟨base, [.differenceCleanup], hgrow (by simp [lazyApply, record, hj])⟩

variable [EquivBEq K]

/-- One mutation of the history moves both sets. -/
theorem apply_agree (s : PySet K) (e : EagerSet K) (t : SetTable K) (m : Mutation K)
    (h : Agree s e t) (hv : Valid s.entries m) :
    ∃ e' t', eagerApply e m = some e' ∧ Agree (lazyApply s m) e' t' := by
  obtain ⟨base, hist, hj⟩ := h.history
  have hd := keysStep_distinct s.entries m h.distinct hv
  have htied := h.tied
  have hent := h.entries
  have hdist : Distinct e.entries := hent ▸ h.distinct
  cases m with
  | insert key =>
    have hfresh : e.nextId ∉ e.ids := fun hm => Nat.lt_irrefl _ (h.below _ hm)
    obtain ⟨x', t', hx, ht, h'⟩ := tied_insert htied e.nextId key hfresh
    refine ⟨⟨e.entries++[key], e.ids++[e.nextId], e.nextId+1, x'⟩, t', ?_, ?_⟩
    · simp [eagerApply, hx]
    · refine ⟨journalled_step s t t' base hist _ hj h.distinct hv ht, hd, ?_, h', ?_⟩
      · simp [lazyApply, hent]
      · intro id hid
        rcases List.mem_append.mp hid with hid | hid
        · have := h.below id hid
          simp only
          omega
        · rw [List.mem_singleton.mp hid]
          simp
  | remove p key =>
    have hk : e.entries[p]? = some key := hent ▸ hv
    obtain ⟨hp, -⟩ := List.getElem?_eq_some_iff.mp hk
    obtain ⟨id, hid⟩ : ∃ id, e.ids[p]? = some id :=
      ⟨_, List.getElem?_eq_getElem (htied.len ▸ hp)⟩
    obtain ⟨x', t', hx, ht, h'⟩ := tied_remove htied hdist p id key hid hk
    refine ⟨⟨e.entries.eraseIdx p, e.ids.eraseIdx p, e.nextId, x'⟩, t', ?_, ?_⟩
    · simp [eagerApply, eagerRemoveIndex, hk, hid, hx]
    · refine ⟨journalled_step s t t' base hist _ hj h.distinct hv ht, hd, ?_, h', ?_⟩
      · rw [lazyApply_entries, keysStep, hent]
      · intro id hm
        exact h.below id (List.mem_of_mem_eraseIdx hm)
  | merge n =>
    have hn : 0 < n.toNat := Nat.pos_of_ne_zero (fun h0 => hv (UInt64.toNat_inj.mp h0))
    obtain ⟨x', t', hx, ht, h'⟩ := tied_merge htied n.toNat hn
    refine ⟨{ e with table := x' }, t', by simp [eagerApply, hx], ?_⟩
    exact ⟨journalled_step s t t' base hist _ hj h.distinct hv ht, hd, hent, h', h.below⟩
  | differenceCleanup =>
    obtain ⟨x', t', hx, ht, h'⟩ := tied_cleanup htied
    refine ⟨{ e with table := x' }, t', by simp [eagerApply, hx], ?_⟩
    exact ⟨journalled_step s t t' base hist _ hj h.distinct hv ht, hd, hent, h', h.below⟩

theorem applyAll_agree (ms : List (Mutation K)) (s : PySet K) (e : EagerSet K) (t : SetTable K)
    (h : Agree s e t) (hv : ValidAlong ms s.entries) :
    ∃ e' t', ms.foldlM eagerApply e = some e' ∧ Agree (ms.foldl lazyApply s) e' t' := by
  induction ms generalizing s e t with
  | nil => exact ⟨e, t, rfl, h⟩
  | cons m ms ih =>
    obtain ⟨e1, t1, he1, h1⟩ := apply_agree s e t m h hv.1
    obtain ⟨e2, t2, he2, h2⟩ := ih _ e1 t1 h1 (by rw [lazyApply_entries]; exact hv.2)
    refine ⟨e2, t2, ?_, h2⟩
    rw [List.foldlM_cons, he1]
    exact he2

end refinement

section operations

def dropped (keep : ℕ → K → Bool) (keys : List K) : List (K × ℕ) :=
  keys.zipIdx.filter (fun key => !keep key.2 key.1)

def kept (keep : ℕ → K → Bool) (keys : List K) : List K :=
  (keys.zipIdx.filter (fun key => keep key.2 key.1)).map Prod.fst

theorem removals_eq (keep : ℕ → K → Bool) (keys : List K) :
    removals keep keys = (dropped keep keys).map (fun key => (key.2, pythonHash key.1)) := by
  rw [removals, dropped]
  induction keys.zipIdx with
  | nil => rfl
  | cons key rest ih => cases hk : keep key.2 key.1 <;> simp [hk, ih]

omit [DictEntry K] in
theorem dropped_concat (keep : ℕ → K → Bool) (keys : List K) (key : K) :
    dropped keep (keys++[key]) =
      dropped keep keys++(if keep keys.length key then [] else [(key, keys.length)]) := by
  cases hk : keep keys.length key <;> simp [dropped, List.zipIdx_append, hk]

omit [DictEntry K] in
theorem kept_concat (keep : ℕ → K → Bool) (keys : List K) (key : K) :
    kept keep (keys++[key]) =
      kept keep keys++(if keep keys.length key then [key] else []) := by
  cases hk : keep keys.length key <;> simp [kept, List.zipIdx_append, hk]

def dropMutations (keep : ℕ → K → Bool) (keys : List K) : List (Mutation K) :=
  (dropped keep keys).reverse.map (fun key => .remove key.2 key.1)

variable [BEq K]

omit [DictEntry K] in
/-- Erasing from the back never moves a position that is still to be erased. -/
theorem dropMutations_spec (keep : ℕ → K → Bool) (keys rest : List K) :
    ValidAlong (dropMutations keep keys) (keys++rest) ∧
      (dropMutations keep keys).foldl keysStep (keys++rest) = kept keep keys++rest := by
  induction keys using List.reverseRecOn generalizing rest with
  | nil => exact ⟨trivial, rfl⟩
  | append_singleton keys key ih =>
    rw [dropMutations, dropped_concat, kept_concat]
    cases hk : keep keys.length key with
    | true =>
      have hrest := ih (key::rest)
      simpa [dropMutations] using hrest
    | false =>
      have hget : (keys++[key]++rest)[keys.length]? = some key := by simp
      have herase : (keys++[key]++rest).eraseIdx keys.length = keys++rest := by
        simp [List.eraseIdx_append_of_length_le]
      obtain ⟨hv, hf⟩ := ih rest
      simp only [dropMutations] at hv hf
      simp only [Bool.false_eq_true, if_false, List.append_nil, List.reverse_append,
        List.reverse_singleton, List.singleton_append, List.map_cons, List.foldl_cons, keysStep,
        herase]
      exact ⟨⟨hget, by rw [keysStep, herase]; exact hv⟩, hf⟩

def opMutations (keys : List K) : Op K → List (Mutation K)
  | .insert key =>
    match keys.findIdx? (fun stored => stored == key) with
    | some _ => []
    | none => [.insert key]
  | .shiftRemove key =>
    match keys.findIdx? (fun stored => stored == key) with
    | none => []
    | some i => (keys[i]?.map (Mutation.remove i)).toList
  | .pop => (keys.getLast?.map (Mutation.remove (keys.length-1))).toList
  | .retain keep => dropMutations keep keys
  | .prepareCpythonMerge n => if n = 0 then [] else [.merge n]
  | .finishCpythonDifferenceUpdate => [.differenceCleanup]
  | .clear => []

omit [DictEntry K] in
theorem opMutations_valid (keys : List K) (op : Op K) : ValidAlong (opMutations keys op) keys := by
  cases op with
  | insert key =>
    simp only [opMutations]
    cases hi : keys.findIdx? (fun stored => stored == key) with
    | some i => trivial
    | none =>
      rw [List.findIdx?_eq_none_iff] at hi
      exact ⟨hi, trivial⟩
  | shiftRemove key =>
    simp only [opMutations]
    cases hi : keys.findIdx? (fun stored => stored == key) with
    | none => trivial
    | some i =>
      simp only
      cases hk : keys[i]? with
      | none => trivial
      | some stored => exact ⟨hk, trivial⟩
  | pop =>
    simp only [opMutations]
    cases hl : keys.getLast? with
    | none => trivial
    | some stored =>
      rw [List.getLast?_eq_getElem?] at hl
      exact ⟨hl, trivial⟩
  | retain keep => simpa [opMutations] using (dropMutations_spec keep keys []).1
  | prepareCpythonMerge n =>
    simp only [opMutations]
    split
    · trivial
    · rename_i hn
      exact ⟨hn, trivial⟩
  | finishCpythonDifferenceUpdate => exact ⟨trivial, trivial⟩
  | clear => trivial

omit [BEq K] in
theorem lazyApply_removes (l : List (K × ℕ)) (s : PySet K) (hne : l ≠ []) :
    (l.map (fun key => Mutation.remove key.2 key.1)).foldl lazyApply s =
      { s with
        entries := (l.map (fun key => Mutation.remove key.2 key.1)).foldl keysStep s.entries
        mutationJournal := some (s.mutationJournal.getD []++
          l.map (fun key => SetDeferredMutation.removedHash key.2 (pythonHash key.1))) } := by
  induction l generalizing s with
  | nil => exact absurd rfl hne
  | cons key l ih =>
    cases l with
    | nil => rfl
    | cons next l =>
      rw [List.map_cons, List.foldl_cons, ih _ (by simp)]
      simp [lazyApply, record, encode, keysStep]

/-- Every operation but `clear` appends its mutations to the history. -/
theorem step_eq (s : PySet K) (op : Op K) (hc : op ≠ .clear) :
    step s op = (opMutations s.entries op).foldl lazyApply s := by
  cases op with
  | insert key =>
    simp only [step, insertFull, opMutations]
    cases s.entries.findIdx? (fun stored => stored == key) <;> rfl
  | shiftRemove key =>
    simp only [step, shiftRemove, opMutations]
    cases s.entries.findIdx? (fun stored => stored == key) with
    | none => rfl
    | some i =>
      simp only [shiftRemoveIndex]
      cases s.entries[i]? <;> rfl
  | pop =>
    simp only [step, pop, opMutations, List.getLast?_eq_getElem?]
    cases he : s.entries.isEmpty with
    | true => simp [List.isEmpty_iff.mp he]
    | false =>
      simp only [Bool.false_eq_true, if_false, shiftRemoveIndex]
      cases s.entries[s.entries.length-1]? <;> rfl
  | retain keep =>
    have hspec := (dropMutations_spec keep s.entries []).2
    simp only [List.append_nil] at hspec
    simp only [step, retain, opMutations, removals_eq]
    cases hdrop : dropped keep s.entries with
    | nil => simp [dropMutations, hdrop]
    | cons key rest =>
      have hne : (dropped keep s.entries).reverse ≠ [] := by simp [hdrop]
      rw [dropMutations] at hspec ⊢
      rw [lazyApply_removes _ s hne, hspec, hdrop]
      simp [kept, Function.comp_def]
  | prepareCpythonMerge n =>
    simp only [step, prepareCpythonMerge, opMutations]
    split <;> rfl
  | finishCpythonDifferenceUpdate => rfl
  | clear => exact absurd rfl hc

theorem eagerStep_eq (e : EagerSet K) (op : Op K) (hc : op ≠ .clear) :
    eagerStep e op = (opMutations e.entries op).foldlM eagerApply e := by
  cases op with
  | insert key =>
    simp only [eagerStep, opMutations]
    cases e.entries.findIdx? (fun stored => stored == key) with
    | some i => rfl
    | none =>
      cases h : e.table.insert ⟨pythonHash key, e.nextId⟩ <;> simp [eagerApply, h]
  | shiftRemove key =>
    simp only [eagerStep, opMutations]
    cases hi : e.entries.findIdx? (fun stored => stored == key) with
    | none => rfl
    | some i =>
      obtain ⟨hlt, -⟩ := List.findIdx?_eq_some_iff_getElem.mp hi
      simp [hlt, eagerApply]
  | pop =>
    simp only [eagerStep, opMutations, List.getLast?_eq_getElem?]
    cases he : e.entries with
    | nil => rfl
    | cons key keys => simp [eagerApply]
  | retain keep =>
    simp only [eagerStep, opMutations, removals_eq, dropMutations, ← List.map_reverse,
      List.foldlM_map]
    rfl
  | prepareCpythonMerge n =>
    simp only [eagerStep, opMutations]
    split
    · rfl
    · cases h : e.table.prepareMerge n.toNat <;> simp [eagerApply, h]
  | finishCpythonDifferenceUpdate =>
    cases h : e.table.finishDifferenceUpdate <;> simp [eagerStep, opMutations, eagerApply, h]
  | clear => exact absurd rfl hc

def lazyRun (capacity : ℕ) (ops : List (Op K)) : PySet K :=
  ops.foldl step (withCpythonDictCapacity capacity)

def eagerRun (capacity : ℕ) (ops : List (Op K)) : Option (EagerSet K) :=
  ops.foldlM eagerStep (eagerStart (withCpythonDictCapacity (K := K) capacity).initialTableSize)

theorem start_agree (s : PySet K) (hs : ∃ k, max s.initialTableSize setProbeMinsize = 2^k)
    (he : s.entries = []) (hj : s.mutationJournal = none) :
    Agree s (eagerStart s.initialTableSize) (SetTable.withTableSize s.initialTableSize) := by
  refine ⟨⟨[], [], hs, trivial, List.Pairwise.nil, he, Or.inr ⟨hj, rfl⟩, rfl⟩, ?_, he.symm, ?_, ?_⟩
  · rw [he]
    exact List.Pairwise.nil
  · exact fresh_tied _ hs
  · simp [eagerStart]

variable [EquivBEq K]

theorem step_agree (s : PySet K) (e : EagerSet K) (t : SetTable K) (op : Op K)
    (h : Agree s e t) : ∃ e' t', eagerStep e op = some e' ∧ Agree (step s op) e' t' := by
  by_cases hc : op = .clear
  · subst hc
    exact ⟨_, _, rfl, start_agree {} ⟨3, rfl⟩ rfl rfl⟩
  · rw [step_eq s op hc, eagerStep_eq e op hc, h.entries]
    exact applyAll_agree _ s e t h (opMutations_valid s.entries op)

theorem run_agree (ops : List (Op K)) (s : PySet K) (e : EagerSet K) (t : SetTable K)
    (h : Agree s e t) :
    ∃ e' t', ops.foldlM eagerStep e = some e' ∧ Agree (ops.foldl step s) e' t' := by
  induction ops generalizing s e t with
  | nil => exact ⟨e, t, rfl, h⟩
  | cons op ops ih =>
    obtain ⟨e1, t1, he1, h1⟩ := step_agree s e t op h
    obtain ⟨e2, t2, he2, h2⟩ := ih _ e1 t1 h1
    refine ⟨e2, t2, ?_, h2⟩
    rw [List.foldlM_cons, he1]
    exact he2

/-- The snapshot of a set is tied to the table of its history, under the
identities of the final order. -/
theorem snapshot_tied (s : PySet K) (t : SetTable K) (base : List K) (hist : List (Mutation K))
    (h : Journalled s t base hist) :
    ∃ x, pythonHashSnapshot s = some x ∧ Tied x t (List.range s.entries.length) s.entries := by
  have hreplay : pythonHashSnapshot s = replay (hist.map encode) s.entries s.initialTableSize := by
    rcases h.journal with hj | ⟨hj, rfl⟩
    · simp [pythonHashSnapshot, hj, materialize_eq_replay]
    · simp [pythonHashSnapshot, hj, enter_keys, replay]
  obtain ⟨hord, hredo⟩ := redo_undo hist base (setReplayKeys s.entries 0) s.entries.length h.valid
    h.distinct (h.entries ▸ setReplayKeys_ordered s.entries) _ rfl
  set u := (hist.map encode).foldr undoStep
    { state := setReplayKeys s.entries 0, nextReplayId := s.entries.length } with hu
  obtain ⟨x0, t0, hx0, ht0, h0⟩ := tied_enter u.state base (fresh_tied s.initialTableSize h.size)
    hord.stands (by simpa using hord.nodup)
  obtain ⟨x1, t1, hx1, ht1, h1⟩ := hredo x0 t0 h0
  have htab := h.table
  have hkey : keyTable base s.initialTableSize = some t0 := ht0
  rw [hkey, Option.bind_some, ht1] at htab
  injection htab with htab
  subst htab
  refine ⟨x1, ?_, ?_⟩
  · rw [hreplay]
    simp only [replay, ← hu, hx0, Option.bind_eq_bind, Option.bind_some, hx1]
  · rw [setReplayKeys_ids, ← h.entries] at h1
    exact h1

omit [DictEntry K] [BEq K] [EquivBEq K] in
/-- Slots of identities read through any lookup that knows their keys. -/
theorem slots_resolve {ids : List ℕ} {keys : List K} (lookup : ℕ → Option K)
    (hl : ∀ id key, Named ids keys id key → lookup id = some key) (l : List (SetSlot ℕ))
    (l' : List (SetSlot K)) (h : List.Forall₂ (SlotRel (Named ids keys)) l l') :
    l.map (fun slot => slot.map lookup) = l'.map (fun slot => slot.map some) := by
  induction h with
  | nil => rfl
  | cons hs _ ih =>
    rw [List.map_cons, List.map_cons, ih]
    cases hs with
    | empty => rfl
    | dummy => rfl
    | entry hab => simp [SetSlot.map, hl _ _ hab]

omit [DictEntry K] [BEq K] [EquivBEq K] in
theorem live_resolve {ids : List ℕ} {keys : List K} (lookup : ℕ → Option K)
    (hl : ∀ id key, Named ids keys id key → lookup id = some key) (l : List ℕ) (l' : List K)
    (h : List.Forall₂ (Named ids keys) l l') : l.mapM lookup = some l' := by
  induction h with
  | nil => rfl
  | cons hab _ ih => simp [List.mapM_cons, hl _ _ hab, ih]

omit [DictEntry K] [BEq K] [EquivBEq K] in
theorem range_named (keys : List K) (id : ℕ) (key : K)
    (h : Named (List.range keys.length) keys id key) : keys[id]? = some key := by
  obtain ⟨i, hi, hk⟩ := h
  obtain ⟨-, rfl⟩ := List.getElem?_eq_some_iff.mp hi
  simpa using hk

omit [DictEntry K] [BEq K] [EquivBEq K] in
theorem keyOf_named (e : EagerSet K) (hn : e.ids.Nodup) (id : ℕ) (key : K)
    (h : Named e.ids e.entries id key) : e.keyOf id = some key := by
  obtain ⟨i, hi, hk⟩ := h
  have hidx : e.ids[e.ids.idxOf id]? = some id := by
    rw [List.getElem?_eq_getElem (List.idxOf_lt_length_of_mem (List.mem_of_getElem? hi)),
      List.getElem_idxOf]
  rw [EagerSet.keyOf, nodup_position e.ids hn _ i id hidx hi, hk]

omit [DictEntry K] [BEq K] [EquivBEq K] in
theorem withCpythonDictCapacity_size (capacity : ℕ) : ∃ k,
    max (withCpythonDictCapacity (K := K) capacity).initialTableSize setProbeMinsize = 2^k := by
  obtain ⟨k, hk, h8, -⟩ := tableSizeForMinused_spec (capacity*2)
  simp only [withCpythonDictCapacity]
  split
  · exact ⟨k, by rw [← hk]; simp only [setProbeMinsize]; omega⟩
  · exact ⟨3, by simp [setProbeMinsize]⟩

/-- Whatever the operations were, a snapshot exists; its table has the slots,
fill and used counts of the table that applied every operation at once, and
its identities are positions in the final order. -/
theorem snapshot_eq_eager (capacity : ℕ) (ops : List (Op K)) :
    ∃ snap e, pythonHashSnapshot (lazyRun capacity ops) = some snap ∧
      eagerRun capacity ops = some e ∧ e.entries = (lazyRun capacity ops).entries ∧
      snap.fill = e.table.fill ∧ snap.used = e.table.used ∧
      snap.slots.map (fun slot => slot.map (fun id => (lazyRun capacity ops).entries[id]?)) =
        e.table.slots.map (fun slot => slot.map e.keyOf) ∧
      (∀ id ∈ snap.live, id < (lazyRun capacity ops).entries.length) ∧
      (snap.activeKeys (lazyRun capacity ops).entries).isSome = true := by
  obtain ⟨e, t, he, h⟩ := run_agree ops _ _ _
    (start_agree (withCpythonDictCapacity (K := K) capacity)
      (withCpythonDictCapacity_size capacity) rfl rfl)
  set s := lazyRun capacity ops with hs
  have h : Agree s e t := h
  obtain ⟨base, hist, hj⟩ := h.history
  obtain ⟨snap, hsnap, ht⟩ := snapshot_tied s t base hist hj
  have hslots := slots_resolve (fun id => s.entries[id]?) (range_named s.entries) _ _
    ht.mirrors.slots
  have hslots' := slots_resolve e.keyOf (keyOf_named e h.tied.nodup) _ _
    h.tied.mirrors.slots
  have hlive := live_resolve (fun id => s.entries[id]?) (range_named s.entries) _ _
    ht.mirrors.live
  refine ⟨snap, e, hsnap, he, h.entries, ?_, ?_, ?_, ?_, ?_⟩
  · rw [ht.mirrors.fill, h.tied.mirrors.fill]
  · rw [ht.mirrors.used, h.tied.mirrors.used]
  · rw [hslots, hslots']
  · intro id hid
    obtain ⟨hlen, hnamed⟩ := List.forall₂_iff_get.mp ht.mirrors.live
    obtain ⟨i, hi, rfl⟩ := List.getElem_of_mem hid
    have hk := range_named s.entries _ _ (hnamed i hi (hlen ▸ hi))
    exact (List.getElem?_eq_some_iff.mp hk).1
  · rw [PySetProbeSnapshot.activeKeys, hlive]
    rfl

/-- Colliding keys, one of them inserted and removed within the journal. -/
def collidingSetRun : List (Op PlainKey) :=
  [.insert ⟨true, 1⟩, .insert ⟨true, 9⟩, .insert ⟨true, 17⟩, .shiftRemove ⟨true, 9⟩,
    .insert ⟨true, 25⟩, .prepareCpythonMerge 3, .shiftRemove ⟨true, 25⟩,
    .retain (fun _ key => key.hash != 1), .finishCpythonDifferenceUpdate]

theorem snapshot_eq_eager_colliding :
    ∃ snap e, pythonHashSnapshot (lazyRun 0 collidingSetRun) = some snap ∧
      eagerRun 0 collidingSetRun = some e ∧ e.entries = (lazyRun 0 collidingSetRun).entries ∧
      snap.fill = e.table.fill ∧ snap.used = e.table.used ∧
      snap.slots.map (fun slot => slot.map (fun id => (lazyRun 0 collidingSetRun).entries[id]?)) =
        e.table.slots.map (fun slot => slot.map e.keyOf) ∧
      (∀ id ∈ snap.live, id < (lazyRun 0 collidingSetRun).entries.length) ∧
      (snap.activeKeys (lazyRun 0 collidingSetRun).entries).isSome = true :=
  snapshot_eq_eager 0 collidingSetRun

end operations

end Pyrust.SetLazy
