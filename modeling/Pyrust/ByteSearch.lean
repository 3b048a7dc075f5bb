import Mathlib.Algebra.Group.Nat.Defs
import Pyrust.Occurrences
import Pyrust.ScanLoop

/-!
# Searching, splitting and replacing bytes

The methods share `find_subsequence`, which slides a window of the length of the
pattern over the bytes; a window of length zero is refused with a panic. Splitting
from either side calls it on what is left, replacing and counting compare the
pattern at one position after another.
-/

set_option autoImplicit false

namespace Pyrust.ByteSearch

open ScanLoop Occurrences

inductive PyError where
  | valueError (message : String)
  | typeError (message : String)
  deriving DecidableEq, Repr

/-- A byte string. No vector is longer than the largest `i64`. -/
structure ByteString where
  data : List ℕ
  short : data.length < 2^63

/-! ## Searching -/

/-- `slice::windows`. -/
def windows (size : ℕ) (xs : List ℕ) : Scan PyError (List (List ℕ)) :=
  if size = 0 then .error .range
  else .ok ((List.range (xs.length+1-size)).map fun i => (xs.drop i).take size)

/-- `Iterator::position` of the windows that equal `sub`. -/
def position (sub : List ℕ) (ws : List (List ℕ)) : Option ℕ := ws.findIdx? (· = sub)

/-- `Iterator::rposition`. -/
def rposition (sub : List ℕ) (ws : List (List ℕ)) : Option ℕ :=
  (ws.reverse.findIdx? (· = sub)).map fun k => ws.length-1-k

/-- `find_subsequence`. -/
def findSubsequence (haystack sub : List ℕ) : Scan PyError (Option ℕ) :=
  if haystack.length < sub.length then pure none
  else do
    let ws ← windows sub.length haystack
    pure (position sub ws)

/-- `rfind_subsequence`. -/
def rfindSubsequence (haystack sub : List ℕ) : Scan PyError (Option ℕ) :=
  if haystack.length < sub.length then pure none
  else do
    let ws ← windows sub.length haystack
    pure (rposition sub ws)

/-- The left operand of `in`, after bytes-like objects have been taken for their bytes. -/
inductive Item where
  | int (n : ℤ)
  | bool (b : Bool)
  | bigInt
  | bytes (sub : List ℕ)
  | other (typeName : String)

def byteRange : Stop PyError := .error (.valueError "byte must be in range(0, 256)")

def notBytesLike (typeName : String) : Stop PyError :=
  .error (.typeError s!"a bytes-like object is required, not '{typeName}'")

/-- `in` on a bytes object. -/
def bytesContains (data : List ℕ) : Item → Scan PyError Bool
  | .int n => if 0 ≤ n ∧ n ≤ 255 then .ok (data.contains n.toNat) else .error byteRange
  | .bool b => .ok (data.contains b.toNat)
  | .bigInt => .error byteRange
  | .bytes sub =>
    if sub.isEmpty then .ok true
    else do
      let ws ← windows sub.length data
      pure (ws.any (· = sub))
  | .other typeName => .error (notBytesLike typeName)

/-- `contains` of a bytearray. -/
def bytearrayContains (data : List ℕ) : Item → Scan PyError Bool
  | .int n => if 0 ≤ n ∧ n ≤ 255 then .ok (data.contains n.toNat) else .error byteRange
  | .bool b => .ok (data.contains b.toNat)
  | .bigInt => .error byteRange
  | .bytes sub => do
    let found ← findSubsequence data sub
    pure found.isSome
  | .other typeName => .error (notBytesLike typeName)

/-! ## Splitting -/

/-- A count of `-1` or below is no limit. -/
def limit (n : ℤ) : ℕ := if n < 0 then 2^64-1 else n.toNat

section loops
variable (bytes sep : List ℕ) (max : ℕ)

/-- The state of a splitting loop: the parts so far and their number. -/
abbrev Parts := List (List ℕ) × ℕ

/-- A round of the loop from the left; the position is `start`. -/
def splitStep (start : ℕ) (s : Parts) : Scan PyError (Move Parts (List (List ℕ))) := do
  let tail ← sliceOf bytes start bytes.length
  if s.2 < max then
    let found ← findSubsequence tail sep
    match found with
    | some pos =>
      let part ← sliceOf bytes start (start+pos)
      pure (.on (start+(pos+sep.length)) (s.1 ++ [part], s.2+1))
    | none => pure (.stop (s.1 ++ [tail]))
  else pure (.stop (s.1 ++ [tail]))

/-- A round of the loop from the right; the position is `end`. -/
def rsplitStep (stop : ℕ) (s : Parts) : Scan PyError (Move Parts (List (List ℕ))) := do
  let front ← sliceOf bytes 0 stop
  if s.2 < max then
    let found ← rfindSubsequence front sep
    match found with
    | some pos =>
      let part ← sliceOf bytes (pos+sep.length) stop
      pure (.on pos (s.1 ++ [part], s.2+1))
    | none => pure (.stop (s.1 ++ [front]).reverse)
  else pure (.stop (s.1 ++ [front]).reverse)

end loops

/-- `bytes_split_by_sep`. -/
def bytesSplitBySep (bytes sep : List ℕ) (maxsplit : ℤ) (reverse : Bool) :
    Scan PyError (List (List ℕ)) :=
  if reverse then run (rsplitStep bytes sep (limit maxsplit)) (bytes.length+2) bytes.length ([], 0)
  else run (splitStep bytes sep (limit maxsplit)) (bytes.length+2) 0 ([], 0)

/-- `bytes_split` and `bytes_rsplit` with a separator. -/
def bytesSplit (bytes sep : List ℕ) (maxsplit : ℤ) (reverse : Bool) :
    Scan PyError (List (List ℕ)) :=
  if sep.isEmpty then fail (.valueError "empty separator")
  else bytesSplitBySep bytes sep maxsplit reverse

/-- `bytes_join` of byte items: the separator ahead of every item but the first. -/
def bytesJoin (sep : List ℕ) (items : List (List ℕ)) : List ℕ :=
  (items.zipIdx.foldl (fun out x => (if 0 < x.2 then out ++ sep else out) ++ x.1) [])

/-! ## Replacing and counting -/

section loops
variable (bytes old new : List ℕ) (max : ℕ)

/-- A round of `bytes_replace`; the state is the output and the number of replacements. -/
def replaceStep (i : ℕ) (s : List ℕ × ℕ) : Scan PyError (Move (List ℕ × ℕ) (List ℕ)) := do
  let tail ← sliceOf bytes i bytes.length
  if i+old.length ≤ bytes.length ∧ ¬ max ≤ s.2 then
    if old.isPrefixOf tail then pure (.on (i+old.length) (s.1 ++ new, s.2+1))
    else do
      let b ← index bytes i
      pure (.on (i+1) (s.1 ++ [b], s.2))
  else pure (.stop (s.1 ++ tail))

/-- The bytes with `new` between them, as often as the limit allows. -/
def interleave : List ℕ → ℕ → List ℕ → List ℕ
  | [], _, out => out
  | b::bs, done, out =>
    if done < max then interleave bs (done+1) (out ++ [b] ++ new)
    else interleave bs done (out ++ [b])

end loops

/-- `bytes_replace`. -/
def bytesReplace (bytes old new : List ℕ) (count : ℤ) : Scan PyError (List ℕ) :=
  if count = 0 then pure bytes
  else if old.isEmpty then
    -- the limit is at least one here
    pure (interleave new (limit count) bytes 1 new)
  else run (replaceStep bytes old new (limit count)) (bytes.length+2) 0 ([], 0)

/-- A round of `bytes_count`. -/
def countStep (haystack sub : List ℕ) (i count : ℕ) : Scan PyError (Move ℕ ℕ) :=
  if i+sub.length ≤ haystack.length then do
    let window ← sliceOf haystack i (i+sub.length)
    if window = sub then pure (.on (i+sub.length) (count+1)) else pure (.on (i+1) count)
  else pure (.stop count)

/-- `bytes_count` of the whole byte string. -/
def bytesCount (haystack sub : List ℕ) : Scan PyError ℕ :=
  if sub.isEmpty then pure (haystack.length+1)
  else run (countStep haystack sub) (haystack.length+2) 0 0

/-! ## The windows find occurrences -/

section windows
variable {xs sub : List ℕ} {i : ℕ}

theorem window_eq_iff : (xs.drop i).take sub.length = sub ↔ sub <+: xs.drop i := by
  rw [List.prefix_iff_eq_take, eq_comm]

theorem prefix_drop_length (hsub : sub ≠ []) (h : sub <+: xs.drop i) :
    i < xs.length+1-sub.length := by
  have hle := h.length_le
  have hpos := List.length_pos_iff.mpr hsub
  rw [List.length_drop] at hle
  omega

/-- The windows of a list, at their places. -/
def windowsOf (size : ℕ) (xs : List ℕ) : List (List ℕ) :=
  (List.range (xs.length+1-size)).map fun i => (xs.drop i).take size

theorem windows_ok (hsub : sub ≠ []) : windows sub.length xs = .ok (windowsOf sub.length xs) :=
  if_neg (Nat.pos_iff_ne_zero.mp (List.length_pos_iff.mpr hsub))

theorem length_windowsOf {size : ℕ} : (windowsOf size xs).length = xs.length+1-size := by
  simp [windowsOf]

theorem getElem_windowsOf {size : ℕ} (h : i < (windowsOf size xs).length) :
    (windowsOf size xs)[i] = (xs.drop i).take size := by
  simp [windowsOf]

theorem infix_iff (hsub : sub ≠ []) :
    sub <:+: xs ↔ ∃ i, i < xs.length+1-sub.length ∧ sub <+: xs.drop i := by
  constructor
  · rintro ⟨front, rest, rfl⟩
    have hpre : sub <+: (front ++ sub ++ rest).drop front.length := by
      rw [List.append_assoc, List.drop_left]
      exact List.prefix_append _ _
    exact ⟨front.length, prefix_drop_length hsub hpre, hpre⟩
  · rintro ⟨i, -, hpre⟩
    exact infix_of_prefix_drop hpre

theorem position_eq_first (hsub : sub ≠ []) :
    position sub (windowsOf sub.length xs) = first sub xs := by
  apply FirstOccurrence.eq_first
  cases hpos : position sub (windowsOf sub.length xs) with
  | none =>
    have hnone := List.findIdx?_eq_none_iff.mp hpos
    intro hin
    obtain ⟨i, hi, hpre⟩ := (infix_iff hsub).mp hin
    have hmem : (xs.drop i).take sub.length ∈ windowsOf sub.length xs :=
      List.mem_map.mpr ⟨i, List.mem_range.mpr hi, rfl⟩
    have := hnone _ hmem
    rw [window_eq_iff.mpr hpre] at this
    simp at this
  | some i =>
    obtain ⟨hi, heq, hleast⟩ := List.findIdx?_eq_some_iff_getElem.mp hpos
    rw [getElem_windowsOf, decide_eq_true_eq] at heq
    rw [length_windowsOf] at hi
    have hpre := window_eq_iff.mp heq
    refine ⟨by omega, hpre, fun j hj hprej => ?_⟩
    have := hleast j hj
    rw [getElem_windowsOf, window_eq_iff.mpr hprej] at this
    simp at this

theorem findSubsequence_eq (hsub : sub ≠ []) : findSubsequence xs sub = .ok (first sub xs) := by
  rw [findSubsequence]
  split_ifs with hshort
  · rw [first_short hshort]
    rfl
  · rw [windows_ok hsub]
    exact congrArg Except.ok (position_eq_first hsub)

theorem any_windowsOf (hsub : sub ≠ []) :
    ((windowsOf sub.length xs).any (· = sub)) = decide (sub <:+: xs) := by
  rw [← isSome_first, ← position_eq_first hsub, position, List.findIdx?_isSome]

/-- The place that the search from the right reports. -/
theorem rfindSubsequence_eq (hsub : sub ≠ []) : ∃ r, rfindSubsequence xs sub = .ok r ∧
    ∀ i ∈ r, i+sub.length ≤ xs.length ∧ sub <+: xs.drop i := by
  rw [rfindSubsequence]
  split_ifs with hshort
  · exact ⟨none, rfl, by simp⟩
  · rw [windows_ok hsub]
    refine ⟨_, rfl, fun i hi => ?_⟩
    obtain ⟨k, hk, rfl⟩ := Option.map_eq_some_iff.mp hi
    obtain ⟨hlt, heq, -⟩ := List.findIdx?_eq_some_iff_getElem.mp hk
    rw [List.length_reverse] at hlt
    rw [List.getElem_reverse, getElem_windowsOf, decide_eq_true_eq] at heq
    rw [length_windowsOf] at hlt heq ⊢
    exact ⟨by omega, window_eq_iff.mp heq⟩

end windows

/-! ## The loops -/

section loops
variable {bytes sub new : List ℕ} {max fuel : ℕ}

theorem slice_tail {start : ℕ} (h : start ≤ bytes.length) :
    (sliceOf bytes start bytes.length : Scan PyError (List ℕ)) = .ok (bytes.drop start) := by
  rw [sliceOf_of_le h (Nat.le_refl _), List.take_length]

theorem slice_front {stop : ℕ} (h : stop ≤ bytes.length) :
    (sliceOf bytes 0 stop : Scan PyError (List ℕ)) = .ok (bytes.take stop) := by
  rw [sliceOf_of_le (Nat.zero_le _) h, List.drop_zero]

theorem slice_window {start k : ℕ} (h : start+k ≤ bytes.length) :
    (sliceOf bytes start (start+k) : Scan PyError (List ℕ)) = .ok ((bytes.drop start).take k) := by
  rw [sliceOf_of_le (Nat.le_add_right _ _) h, List.drop_take, Nat.add_sub_cancel_left]

section splitting
variable {start stop splits pos : ℕ} {parts : List (List ℕ)} {rest : List ℕ}

theorem splitStep_on (hsub : sub ≠ []) (hstart : start ≤ bytes.length) (hmax : splits < max)
    (hfirst : first sub (bytes.drop start) = some pos) :
    splitStep bytes sub max start (parts, splits) =
      .ok (.on (start+(pos+sub.length)) (parts ++ [(bytes.drop start).take pos], splits+1)) := by
  obtain ⟨rest, -, hle, -⟩ := first_some hfirst
  rw [List.length_drop] at hle
  have hpos := List.length_pos_iff.mpr hsub
  rw [splitStep, slice_tail hstart]
  show (if splits < max then _ else _) = _
  rw [if_pos hmax, findSubsequence_eq hsub, hfirst]
  show (sliceOf bytes start (start+pos) >>= fun part => _) = _
  rw [slice_window (by omega)]
  rfl

theorem splitStep_stop (hsub : sub ≠ []) (hstart : start ≤ bytes.length)
    (hend : max ≤ splits ∨ first sub (bytes.drop start) = none) :
    splitStep bytes sub max start (parts, splits) = .ok (.stop (parts ++ [bytes.drop start])) := by
  rw [splitStep, slice_tail hstart]
  show (if splits < max then _ else _) = _
  by_cases hmax : splits < max
  · have hfirst := hend.resolve_left (Nat.not_le.mpr hmax)
    rw [if_pos hmax, findSubsequence_eq hsub, hfirst]
    rfl
  · rw [if_neg hmax]
    rfl

/-- The loop from the left leaves the pieces of what is still to be split. -/
theorem split_run (hsub : sub ≠ []) (hstart : start ≤ bytes.length)
    (hfuel : bytes.length-start < fuel) :
    run (splitStep bytes sub max) fuel start (parts, splits) =
      .ok (parts ++ pieces sub (max-splits) (bytes.drop start)) := by
  induction fuel generalizing start splits parts with
  | zero => omega
  | succ fuel ih =>
    by_cases hmax : splits < max
    · obtain ⟨m, hm⟩ : ∃ m, max-splits = m+1 := ⟨max-splits-1, by omega⟩
      cases hfirst : first sub (bytes.drop start) with
      | none => rw [run_stop (splitStep_stop hsub hstart (.inr hfirst)), pieces_none hfirst]
      | some pos =>
        obtain ⟨rest, -, hle, -⟩ := first_some hfirst
        have hpos := List.length_pos_iff.mpr hsub
        rw [List.length_drop] at hle
        rw [run_on (splitStep_on hsub hstart hmax hfirst), ih (by omega) (by omega), hm, pieces,
          hfirst]
        dsimp only
        rw [List.append_assoc, List.drop_drop, show max-(splits+1) = m by omega]
        rfl
    · rw [run_stop (splitStep_stop hsub hstart (.inl (Nat.not_lt.mp hmax))),
        show max-splits = 0 by omega]
      rfl

/-- A round from the right that goes on takes off an occurrence and what is behind it. -/
theorem rsplitStep_on (hstop : stop ≤ bytes.length) (hmax : splits < max)
    (hfound : rfindSubsequence (bytes.take stop) sub = .ok (some pos))
    (hle : pos+sub.length ≤ stop) (hrest : sub ++ rest = (bytes.take stop).drop pos) :
    rsplitStep bytes sub max stop (parts, splits) = .ok (.on pos (parts ++ [rest], splits+1)) ∧
      bytes.take stop = bytes.take pos ++ sub ++ rest := by
  have hpart : (bytes.take stop).drop (pos+sub.length) = rest := by
    rw [← List.drop_drop, ← hrest, List.drop_left]
  constructor
  · rw [rsplitStep, slice_front hstop]
    show (if splits < max then _ else _) = _
    rw [if_pos hmax, hfound]
    show (sliceOf bytes (pos+sub.length) stop >>= fun part => _) = _
    rw [sliceOf_of_le hle hstop, hpart]
    rfl
  · have htake : bytes.take pos = (bytes.take stop).take pos := by
      rw [List.take_take, Nat.min_eq_left (by omega)]
    rw [htake, List.append_assoc, hrest, List.take_append_drop]

theorem rsplitStep_stop (hstop : stop ≤ bytes.length)
    (hend : max ≤ splits ∨ rfindSubsequence (bytes.take stop) sub = .ok none) :
    rsplitStep bytes sub max stop (parts, splits) =
      .ok (.stop (parts ++ [bytes.take stop]).reverse) := by
  rw [rsplitStep, slice_front hstop]
  show (if splits < max then _ else _) = _
  by_cases hmax : splits < max
  · rw [if_pos hmax, hend.resolve_left (Nat.not_le.mpr hmax)]
    rfl
  · rw [if_neg hmax]
    rfl

/-- The loop from the right keeps the bytes when its parts are joined, and adds at most as many
parts as the limit leaves. -/
theorem rsplit_run (hsub : sub ≠ []) (hstop : stop ≤ bytes.length) (hfuel : stop < fuel)
    (hsplits : splits ≤ max) (hlen : parts.length = splits)
    (hjoin : List.intercalate sub (bytes.take stop::parts.reverse) = bytes) :
    ∃ r, run (rsplitStep bytes sub max) fuel stop (parts, splits) = .ok r ∧
      List.intercalate sub r = bytes ∧ r.length ≤ max+1 := by
  induction fuel generalizing stop splits parts with
  | zero => omega
  | succ fuel ih =>
    have hdone : ∃ r, (Except.ok (parts ++ [bytes.take stop]).reverse : Scan PyError _) = .ok r ∧
        List.intercalate sub r = bytes ∧ r.length ≤ max+1 := by
      refine ⟨_, rfl, ?_, ?_⟩
      · rwa [List.reverse_append]
      · rw [List.length_reverse, List.length_append, List.length_singleton]
        omega
    by_cases hmax : splits < max
    · obtain ⟨r, hr, hspec⟩ := @rfindSubsequence_eq (bytes.take stop) sub hsub
      cases r with
      | none =>
        rw [run_stop (rsplitStep_stop hstop (.inr hr))]
        exact hdone
      | some pos =>
        obtain ⟨hle, rest, hrest⟩ := hspec pos rfl
        rw [List.length_take, Nat.min_eq_left hstop] at hle
        have hpos := List.length_pos_iff.mpr hsub
        obtain ⟨hstep, hsplit⟩ := @rsplitStep_on _ _ _ _ splits _ parts _ hstop hmax hr hle hrest
        rw [run_on hstep]
        refine ih (by omega) (by omega) hmax (by simp [hlen]) ?_
        rw [List.reverse_append, List.reverse_singleton, List.singleton_append,
          intercalate_cons_ne (List.cons_ne_nil _ _), ← intercalate_append_head, ← hsplit, hjoin]
    · rw [run_stop (rsplitStep_stop hstop (.inl (Nat.not_lt.mp hmax)))]
      exact hdone

end splitting

theorem foldl_join {items : List (List ℕ)} {out : List ℕ} {k : ℕ} (hk : 0 < k) :
    (items.zipIdx k).foldl (fun out x => (if 0 < x.2 then out ++ sub else out) ++ x.1) out =
      out ++ (items.map (sub ++ ·)).flatten := by
  induction items generalizing out k with
  | nil => simp
  | cons item items ih =>
    rw [List.zipIdx_cons, List.foldl_cons, ih (Nat.succ_pos k), if_pos hk]
    simp

theorem bytesJoin_eq (sep : List ℕ) (items : List (List ℕ)) :
    bytesJoin sep items = List.intercalate sep items := by
  rcases items with _ | ⟨item, items⟩
  · rfl
  · rw [bytesJoin, List.zipIdx_cons, List.foldl_cons, foldl_join (by decide)]
    simp only [Nat.lt_irrefl, if_false, List.nil_append]
    induction items generalizing item with
    | nil => simp
    | cons next items ih =>
      rw [List.intercalate_cons_cons, ← ih next, List.map_cons, List.flatten_cons]
      simp

theorem drop_cons {i b : ℕ} {rest : List ℕ} (h : bytes.drop i = b::rest) :
    (index bytes i : Scan PyError ℕ) = .ok b ∧ bytes.drop (i+1) = rest := by
  refine ⟨index_of_some ?_, ?_⟩
  · have := @List.getElem?_drop _ bytes i 0
    rwa [h, Nat.add_zero, eq_comm] at this
  · rw [← List.drop_drop, h]
    rfl

section rounds
variable {i done count n b : ℕ} {out rest : List ℕ}

theorem replaceStep_new (hi : i ≤ bytes.length) (hgo : i+sub.length ≤ bytes.length ∧ ¬ max ≤ done)
    (hpre : sub <+: bytes.drop i) :
    replaceStep bytes sub new max i (out, done) =
      .ok (.on (i+sub.length) (out ++ new, done+1)) := by
  rw [replaceStep, slice_tail hi]
  show (if i+sub.length ≤ bytes.length ∧ ¬ max ≤ done then _ else _) = _
  rw [if_pos hgo, if_pos (List.isPrefixOf_iff_prefix.mpr hpre)]
  rfl

theorem replaceStep_keep (hi : i ≤ bytes.length) (hgo : i+sub.length ≤ bytes.length ∧ ¬ max ≤ done)
    (hpre : ¬ sub <+: bytes.drop i) (hd : bytes.drop i = b::rest) :
    replaceStep bytes sub new max i (out, done) = .ok (.on (i+1) (out ++ [b], done)) := by
  rw [replaceStep, slice_tail hi]
  show (if i+sub.length ≤ bytes.length ∧ ¬ max ≤ done then _ else _) = _
  rw [if_pos hgo, if_neg (mt List.isPrefixOf_iff_prefix.mp hpre), (drop_cons hd).1]
  rfl

theorem replaceStep_stop (hi : i ≤ bytes.length)
    (hend : ¬ (i+sub.length ≤ bytes.length ∧ ¬ max ≤ done)) :
    replaceStep bytes sub new max i (out, done) = .ok (.stop (out ++ bytes.drop i)) := by
  rw [replaceStep, slice_tail hi]
  show (if i+sub.length ≤ bytes.length ∧ ¬ max ≤ done then _ else _) = _
  rw [if_neg hend]
  rfl

/-- Where an occurrence still fits there are bytes left. -/
theorem drop_fits (hsub : sub ≠ []) (h : i+sub.length ≤ bytes.length) :
    ∃ b rest, bytes.drop i = b::rest := by
  have hpos := List.length_pos_iff.mpr hsub
  refine List.exists_cons_of_ne_nil fun hnil => ?_
  have hlen := congrArg List.length hnil
  rw [List.length_drop, List.length_nil] at hlen
  omega

theorem replace_run (hsub : sub ≠ []) (hi : i ≤ bytes.length) (hfuel : bytes.length-i < fuel) :
    run (replaceStep bytes sub new max) fuel i (out, done) =
      .ok (out ++ List.intercalate new (pieces sub (max-done) (bytes.drop i))) := by
  induction fuel generalizing i done out with
  | zero => omega
  | succ fuel ih =>
    have hpos := List.length_pos_iff.mpr hsub
    by_cases hgo : i+sub.length ≤ bytes.length ∧ ¬ max ≤ done
    · by_cases hpre : sub <+: bytes.drop i
      · obtain ⟨m, hm⟩ : ∃ m, max-done = m+1 := ⟨max-done-1, by omega⟩
        rw [run_on (replaceStep_new hi hgo hpre), ih hgo.1 (by omega)]
        obtain ⟨rest, hrest⟩ := hpre
        have hdrop : bytes.drop (i+sub.length) = rest := by
          rw [← List.drop_drop, ← hrest, List.drop_left]
        rw [← hrest, hm, pieces_append, hdrop, intercalate_cons_ne pieces_ne_nil,
          show max-(done+1) = m by omega]
        simp
      · obtain ⟨b, rest, hd⟩ := drop_fits hsub hgo.1
        rw [run_on (replaceStep_keep hi hgo hpre hd), ih (by omega) (by omega), (drop_cons hd).2,
          hd]
        obtain ⟨m, hm⟩ : ∃ m, max-done = m+1 := ⟨max-done-1, by omega⟩
        rw [hd] at hpre
        rw [hm, intercalate_pieces_cons hpre]
        simp
    · have hpieces : pieces sub (max-done) (bytes.drop i) = [bytes.drop i] := by
        by_cases hshort : i+sub.length ≤ bytes.length
        · rw [show max-done = 0 by omega]
          rfl
        · exact pieces_none (first_short (by rw [List.length_drop]; omega))
      rw [run_stop (replaceStep_stop hi hgo), hpieces, List.intercalate_singleton]

theorem countStep_found (hgo : i+sub.length ≤ bytes.length) (hpre : sub <+: bytes.drop i) :
    countStep bytes sub i count = .ok (.on (i+sub.length) (count+1)) := by
  rw [countStep, if_pos hgo, slice_window hgo]
  show (if (bytes.drop i).take sub.length = sub then _ else _) = _
  rw [if_pos (window_eq_iff.mpr hpre)]
  rfl

theorem countStep_next (hgo : i+sub.length ≤ bytes.length) (hpre : ¬ sub <+: bytes.drop i) :
    countStep bytes sub i count = .ok (.on (i+1) count) := by
  rw [countStep, if_pos hgo, slice_window hgo]
  show (if (bytes.drop i).take sub.length = sub then _ else _) = _
  rw [if_neg (mt window_eq_iff.mp hpre)]
  rfl

theorem countStep_stop (hend : ¬ i+sub.length ≤ bytes.length) :
    countStep bytes sub i count = .ok (.stop count) := by
  rw [countStep, if_neg hend]
  rfl

theorem count_run (hsub : sub ≠ []) (hi : i ≤ bytes.length) (hfuel : bytes.length-i < fuel)
    (hn : bytes.length-i ≤ n) :
    ∃ c, run (countStep bytes sub) fuel i count = .ok c ∧
      c+1 = count+(pieces sub n (bytes.drop i)).length := by
  induction fuel generalizing i count n with
  | zero => omega
  | succ fuel ih =>
    have hpos := List.length_pos_iff.mpr hsub
    by_cases hgo : i+sub.length ≤ bytes.length
    · obtain ⟨n, rfl⟩ : ∃ m, n = m+1 := ⟨n-1, by omega⟩
      by_cases hpre : sub <+: bytes.drop i
      · obtain ⟨c, hc, hcount⟩ := @ih (i+sub.length) (count+1) n hgo (by omega) (by omega)
        refine ⟨c, (run_on (countStep_found hgo hpre)).trans hc, ?_⟩
        obtain ⟨rest, hrest⟩ := hpre
        have hdrop : bytes.drop (i+sub.length) = rest := by
          rw [← List.drop_drop, ← hrest, List.drop_left]
        rw [hcount, ← hrest, pieces_append, hdrop, List.length_cons]
        omega
      · obtain ⟨b, rest, hd⟩ := drop_fits hsub hgo
        obtain ⟨c, hc, hcount⟩ := @ih (i+1) count (n+1) (by omega) (by omega) (by omega)
        refine ⟨c, (run_on (countStep_next hgo hpre)).trans hc, ?_⟩
        rw [hd] at hpre
        rw [hcount, (drop_cons hd).2, hd, length_pieces_cons hpre]
    · have hpieces : pieces sub n (bytes.drop i) = [bytes.drop i] :=
        pieces_none (first_short (by rw [List.length_drop]; omega))
      exact ⟨count, run_stop (countStep_stop hgo), by rw [hpieces, List.length_singleton]⟩

end rounds

end loops

/-! ## The laws -/

/-- What searching, splitting, replacing and counting have to do with each other. -/
structure SearchAgrees (b : ByteString) (sub new : List ℕ) (n : ℤ) : Prop where
  find : ∃ r, findSubsequence b.data sub = .ok r ∧ FirstOccurrence sub b.data r
  inBytes : bytesContains b.data (.bytes sub) = .ok (decide (sub <:+: b.data))
  inBytearray : bytearrayContains b.data (.bytes sub) = .ok (decide (sub <:+: b.data))
  split : sub ≠ [] → ∀ reverse, ∃ parts, bytesSplit b.data sub n reverse = .ok parts ∧
    bytesJoin sub parts = b.data ∧ (0 ≤ n → (parts.length : ℤ) ≤ n+1)
  replace : sub ≠ [] → ∃ parts, bytesSplit b.data sub n false = .ok parts ∧
    bytesReplace b.data sub new n = .ok (bytesJoin new parts)
  count : sub ≠ [] → ∃ parts c, bytesSplit b.data sub (-1) false = .ok parts ∧
    bytesCount b.data sub = .ok c ∧ c+1 = parts.length

section laws
variable {b : ByteString} {sub new : List ℕ} {n : ℤ}

theorem bytesSplit_left (hsub : sub ≠ []) :
    bytesSplit b.data sub n false = .ok (pieces sub (limit n) b.data) := by
  have hrun := @split_run b.data sub (limit n) (b.data.length+2) 0 0 [] hsub (Nat.zero_le _)
    (by omega)
  rw [List.nil_append, List.drop_zero, Nat.sub_zero] at hrun
  rw [bytesSplit, if_neg (by simpa using hsub), bytesSplitBySep, if_neg Bool.false_ne_true, hrun]

theorem bytesSplit_right (hsub : sub ≠ []) : ∃ parts, bytesSplit b.data sub n true = .ok parts ∧
    List.intercalate sub parts = b.data ∧ parts.length ≤ limit n+1 := by
  obtain ⟨r, hr, hjoin, hlen⟩ := @rsplit_run b.data sub (limit n) (b.data.length+2)
    b.data.length 0 [] hsub (Nat.le_refl _) (by omega) (Nat.zero_le _) rfl (by simp)
  refine ⟨r, ?_, hjoin, hlen⟩
  rw [bytesSplit, if_neg (by simpa using hsub), bytesSplitBySep, if_pos rfl, hr]

theorem parts_le_limit {k : ℕ} (hk : k ≤ limit n+1) (hn : 0 ≤ n) : (k : ℤ) ≤ n+1 := by
  rw [limit, if_neg (by omega)] at hk
  omega

theorem bytesReplace_eq (hsub : sub ≠ []) :
    bytesReplace b.data sub new n =
      .ok (List.intercalate new (pieces sub (limit n) b.data)) := by
  rw [bytesReplace]
  split_ifs with hzero hempty
  · rw [hzero]
    simp [limit, pieces, pure, Except.pure]
  · simp [hsub] at hempty
  · have hrun := @replace_run b.data sub new (limit n) (b.data.length+2) 0 0 [] hsub
      (Nat.zero_le _) (by omega)
    rwa [List.nil_append, List.drop_zero, Nat.sub_zero] at hrun

theorem bytesCount_eq (hsub : sub ≠ []) : ∃ c, bytesCount b.data sub = .ok c ∧
    c+1 = (pieces sub (limit (-1)) b.data).length := by
  have hshort := b.short
  have hlimit : limit (-1) = 2^64-1 := rfl
  obtain ⟨c, hc, hcount⟩ := @count_run b.data sub (b.data.length+2) 0 0 (limit (-1)) hsub
    (Nat.zero_le _) (by omega) (by omega)
  rw [List.drop_zero, Nat.zero_add] at hcount
  refine ⟨c, ?_, hcount⟩
  rw [bytesCount, if_neg (by simpa using hsub), hc]

theorem bytesContains_eq : bytesContains b.data (.bytes sub) = .ok (decide (sub <:+: b.data)) := by
  rw [bytesContains]
  split_ifs with hempty
  · rw [List.isEmpty_iff.mp hempty]
    simp
  · have hsub : sub ≠ [] := by simpa using hempty
    rw [windows_ok hsub]
    exact congrArg Except.ok (any_windowsOf hsub)

theorem bytearrayContains_eq (hsub : sub ≠ []) :
    bytearrayContains b.data (.bytes sub) = .ok (decide (sub <:+: b.data)) := by
  rw [bytearrayContains, findSubsequence_eq hsub]
  exact congrArg Except.ok isSome_first

/-- A window of length zero is refused. -/
theorem findSubsequence_nil (xs : List ℕ) : findSubsequence xs [] = .error .range := rfl

/-- The laws hold exactly of the non-empty patterns. -/
theorem search_agrees_iff (b : ByteString) (sub new : List ℕ) (n : ℤ) :
    SearchAgrees b sub new n ↔ sub ≠ [] := by
  constructor
  · rintro h rfl
    obtain ⟨r, hr, -⟩ := h.find
    rw [findSubsequence_nil] at hr
    cases hr
  · intro hsub
    refine ⟨⟨_, findSubsequence_eq hsub, firstOccurrence_first sub b.data⟩, bytesContains_eq,
      bytearrayContains_eq hsub, fun _ reverse => ?_, fun _ => ?_, fun _ => ?_⟩
    · cases reverse with
      | false =>
        refine ⟨_, bytesSplit_left hsub, ?_, parts_le_limit length_pieces_le⟩
        rw [bytesJoin_eq, intercalate_pieces]
      | true =>
        obtain ⟨parts, hparts, hjoin, hlen⟩ := @bytesSplit_right b sub n hsub
        exact ⟨parts, hparts, by rw [bytesJoin_eq, hjoin], parts_le_limit hlen⟩
    · refine ⟨_, bytesSplit_left hsub, ?_⟩
      rw [bytesReplace_eq hsub, bytesJoin_eq]
    · obtain ⟨c, hc, hcount⟩ := @bytesCount_eq b sub hsub
      exact ⟨_, c, bytesSplit_left hsub, hc, hcount⟩

/-- `b"" in bytearray(b"a")` panics. -/
theorem empty_pattern_panics :
    ¬ SearchAgrees ⟨[0x61], by decide⟩ [] [] 0 ∧
      bytearrayContains [0x61] (.bytes []) = .error .range := by
  refine ⟨fun h => ?_, rfl⟩
  obtain ⟨r, hr, -⟩ := h.find
  rw [findSubsequence_nil] at hr
  cases hr

end laws
end Pyrust.ByteSearch
