import GmaEngine.StreamSegments

/-!
# Lines of a feed session

A feed session keeps the bytes of an unfinished line until a later read finishes it, and
disconnects when too many are pending. The lines it handles are the lines of the stream, however
the stream is cut into reads.
-/

namespace GmaEngine

/-- A connection of the feed server, with the lines it has handled. -/
structure FeedSession where
  pending : List UInt8 := []
  isOpen : Bool := true
  handled : List (List UInt8) := []

namespace FeedSession
open StreamSegments

def newline : UInt8 := 10
def carriageReturn : UInt8 := 13

def maxPending : ℕ := 128 * 1024

/-- The size of the buffer that is read into. -/
def bufSize : ℕ := 8 * 1024

/-- The round of the scan at index `i`: the start of the current line and the lines so far. -/
def scan (pending : List UInt8) (state : ℕ × List (List UInt8)) (i : ℕ) :
    ℕ × List (List UInt8) :=
  if pending[i]? = some newline then
    let start := state.1
    let lineEnd := if start < i ∧ pending[i - 1]? = some carriageReturn then i - 1 else i
    (i + 1, state.2 ++ [(pending.take lineEnd).drop start])
  else state

/-- A read that succeeded. A closed session reads no more. -/
def onRead (s : FeedSession) (bytes : List UInt8) : FeedSession :=
  if !s.isOpen then s
  else
    let pending := s.pending ++ bytes
    if maxPending < pending.length then { s with pending := pending, isOpen := false }
    else
      let scanned := (List.range pending.length).foldl (scan pending) (0, [])
      { s with pending := pending.drop scanned.1, handled := s.handled ++ scanned.2 }

def run (s : FeedSession) (reads : List (List UInt8)) : FeedSession := reads.foldl onRead s

/-- A line without the carriage return at its end. -/
def stripCR (line : List UInt8) : List UInt8 :=
  if line.getLast? = some carriageReturn then line.dropLast else line

theorem getLast?_slice {pending : List UInt8} {start n : ℕ} (hn : n ≤ pending.length) :
    ((pending.take n).drop start).getLast? = if start < n then pending[n - 1]? else none := by
  rw [List.getLast?_drop, List.length_take, Nat.min_eq_left hn]
  by_cases hlt : start < n
  · rw [if_neg (by omega), if_pos hlt, List.getLast?_eq_getElem?, List.length_take,
      Nat.min_eq_left hn, List.getElem?_take_of_lt (by omega)]
  · rw [if_pos (by omega), if_neg hlt]

/-- The line that the scan cuts out. -/
theorem slice_eq_stripCR {pending : List UInt8} {start n : ℕ} (hn : n ≤ pending.length) :
    (pending.take (if start < n ∧ pending[n - 1]? = some carriageReturn then n - 1 else n)).drop
      start = stripCR ((pending.take n).drop start) := by
  rw [stripCR, getLast?_slice hn]
  by_cases hcr : start < n ∧ pending[n - 1]? = some carriageReturn
  · have hlt := hcr.1
    rw [if_pos hcr, if_pos hlt, if_pos hcr.2, List.dropLast_eq_take, List.length_drop,
      List.length_take, Nat.min_eq_left hn, List.take_drop, List.take_take]
    congr 2
    omega
  · rw [if_neg hcr, if_neg]
    split_ifs with hlt
    · exact fun heq => hcr ⟨hlt, heq⟩
    · simp

/-- The scan of the first `n` bytes. -/
theorem scan_take {pending : List UInt8} {n : ℕ} (hn : n ≤ pending.length) :
    ∃ start, (List.range n).foldl (scan pending) (0, []) =
        (start, (ended newline (pending.take n)).map stripCR) ∧
      leftOver newline (pending.take n) = (pending.take n).drop start ∧ start ≤ n := by
  induction n with
  | zero => exact ⟨0, rfl, rfl, Nat.le_refl 0⟩
  | succ n ih =>
    obtain ⟨start, hfold, hleft, hstart⟩ := ih (Nat.le_of_succ_le hn)
    have hlt : n < pending.length := hn
    have htake : pending.take (n + 1) = pending.take n ++ [pending[n]] :=
      (List.take_append_getElem hlt).symm
    rw [List.range_succ, List.foldl_append, hfold, List.foldl_cons, List.foldl_nil, scan,
      List.getElem?_eq_getElem hlt]
    by_cases hnl : pending[n] = newline
    · obtain ⟨hended, hleft'⟩ := @concat_sep UInt8 _ _ newline (pending.take n)
      rw [← hnl, ← htake, hnl] at hended hleft'
      refine ⟨n + 1, ?_, ?_, Nat.le_refl _⟩
      · rw [if_pos (by rw [hnl]), hended, List.map_append, List.map_singleton, hleft]
        rw [← slice_eq_stripCR (Nat.le_of_succ_le hn)]
      · rw [hleft', List.drop_eq_nil_of_le (List.length_take_le _ _)]
    · obtain ⟨hended, hleft'⟩ := concat_of_ne hnl (pending.take n)
      rw [← htake] at hended hleft'
      refine ⟨start, ?_, ?_, Nat.le_succ_of_le hstart⟩
      · rw [if_neg (by simpa using hnl), hended]
      · rw [hleft', hleft, htake, List.drop_append_of_le_length]
        rw [List.length_take]
        omega

theorem scan_eq (pending : List UInt8) :
    (List.range pending.length).foldl (scan pending) (0, []) =
      (pending.length - (leftOver newline pending).length,
        (ended newline pending).map stripCR) ∧
    pending.drop (pending.length - (leftOver newline pending).length) = leftOver newline pending := by
  obtain ⟨start, hfold, hleft, hstart⟩ := scan_take (Nat.le_refl pending.length)
  rw [List.take_length] at hfold hleft
  have hlen : (leftOver newline pending).length = pending.length - start := by
    rw [hleft, List.length_drop]
  have hback : pending.length - (pending.length - start) = start := by omega
  rw [hlen, hback]
  exact ⟨hfold, hleft.symm⟩

theorem onRead_eq {s : FeedSession} (hopen : s.isOpen = true) {bytes : List UInt8}
    (hfits : (s.pending ++ bytes).length ≤ maxPending) : s.onRead bytes =
      { pending := leftOver newline (s.pending ++ bytes), isOpen := true
        handled := s.handled ++ (ended newline (s.pending ++ bytes)).map stripCR } := by
  obtain ⟨hscan, hdrop⟩ := scan_eq (s.pending ++ bytes)
  rw [onRead, hopen]
  simp only [Bool.not_true, Bool.false_eq_true, if_false, if_neg (Nat.not_lt.mpr hfits), hscan,
    hdrop]

/-- The session after a stream of which every line fits. -/
def after (stream : List UInt8) : FeedSession where
  pending := leftOver newline stream
  handled := (ended newline stream).map stripCR

theorem onRead_after {stream bytes : List UInt8} (hbytes : bytes.length ≤ bufSize)
    (hpending : (leftOver newline stream).length ≤ 64 * 1024) :
    (after stream).onRead bytes = after (stream ++ bytes) := by
  have hfits : ((after stream).pending ++ bytes).length ≤ maxPending := by
    rw [List.length_append]
    change (leftOver newline stream).length + bytes.length ≤ maxPending
    unfold bufSize at hbytes
    unfold maxPending
    omega
  have hafter : after (stream ++ bytes) =
      { pending := leftOver newline (leftOver newline stream ++ bytes)
        handled := (ended newline stream).map stripCR ++
          (ended newline (leftOver newline stream ++ bytes)).map stripCR } := by
    rw [after, ended_append, leftOver_append, List.map_append]
  rw [onRead_eq rfl hfits, hafter]
  rfl

theorem run_after {reads : List (List UInt8)} {stream : List UInt8}
    (hreads : ∀ bytes ∈ reads, bytes.length ≤ bufSize)
    (hlines : ∀ line ∈ (stream ++ reads.flatten).splitOn newline, line.length ≤ 64 * 1024) :
    (after stream).run reads = after (stream ++ reads.flatten) := by
  induction reads generalizing stream with
  | nil => rw [List.flatten_nil, List.append_nil, run, List.foldl_nil]
  | cons bytes reads ih =>
    obtain ⟨line, hline, hpre⟩ :=
      @leftOver_isPrefix UInt8 _ _ newline stream (bytes :: reads).flatten
    have hpending := Nat.le_trans hpre.length_le (hlines line hline)
    have hread := onRead_after (hreads bytes List.mem_cons_self) hpending
    rw [List.flatten_cons, ← List.append_assoc] at hlines ⊢
    rw [run, List.foldl_cons, hread]
    exact ih (fun b hb => hreads b (List.mem_cons_of_mem _ hb)) hlines

/-- However a stream is cut into reads of at most the size of the buffer: if no line is longer
than 64 KiB, the session stays open, it handles the lines that are ended, each without one
carriage return at its end, and the rest is pending. -/
theorem framing_of_reads (reads : List (List UInt8))
    (hreads : ∀ bytes ∈ reads, 1 ≤ bytes.length ∧ bytes.length ≤ bufSize)
    (hlines : ∀ line ∈ reads.flatten.splitOn newline, line.length ≤ 64 * 1024) :
    (run {} reads).isOpen = true ∧
      (run {} reads).handled = (reads.flatten.splitOn newline).dropLast.map stripCR ∧
      some (run {} reads).pending = (reads.flatten.splitOn newline).getLast? := by
  have hrun : run (after []) reads = after ([] ++ reads.flatten) :=
    run_after (fun bytes hbytes => (hreads bytes hbytes).2) hlines
  change run {} reads = after reads.flatten at hrun
  rw [hrun]
  refine ⟨rfl, rfl, ?_⟩
  rw [splitOn_eq, List.getLast?_concat]
  rfl

/-- Two lines, with a carriage return and its newline in different reads. -/
def twoReads : List (List UInt8) := [[97, 13], [10, 98, 10, 99]]

theorem framing_of_twoReads :
    (run {} twoReads).isOpen = true ∧ (run {} twoReads).handled = [[97], [98]] ∧
      (run {} twoReads).pending = [99] := by
  obtain ⟨hopen, hhandled, hpending⟩ := framing_of_reads twoReads (by decide) (by decide)
  exact ⟨hopen, hhandled.trans (by decide), Option.some.inj (hpending.trans (by decide))⟩

end FeedSession
end GmaEngine
