import Mathlib.Data.List.TakeWhile
import Boole.Library.LineLog

/-!
# Node/LineReader — where the chunks end makes no difference

`boole-p2p`'s `read_line_capped`.  A buffered reader hands its stream out in chunks, and the limit
is tested once a chunk: in one way where the chunk holds a newline, in another where it does not.

    chunk │ chunk │ ch⏎nk │ …        line ++ what is left of the chunks = the stream

**The outcome is a function of the stream** (`Reads`): its first line where that fits, and
otherwise the reason why there is none.
-/

open Library Library.Json

namespace Node

variable {cap : ℕ} {line : List UInt8}

inductive FrameError
  | frameTooLarge (seen : ℕ)
  | connectionClosed
  | malformed (detail : String)
deriving DecidableEq

def newline : UInt8 := 10

/-- What a call leaves behind. -/
structure Reading where
  result : Except FrameError (List UInt8)
  /-- The reader: its chunks that were not consumed. -/
  rest : List (List UInt8)
  /-- The most bytes that the line held. -/
  held : ℕ

/-- The loop.  An empty buffer after a refill is the end of the stream. -/
def readLoop (cap : ℕ) (line : List UInt8) : List (List UInt8) → Reading
  | [] => {
      result := .error
        (if line = [] then .connectionClosed else .malformed "connection closed mid-frame")
      rest := []
      held := line.length }
  | available :: chunks =>
    match available.idxOf? newline with
    | some newlineAt =>
      if line.length + newlineAt + 1 > cap then {
        result := .error (.frameTooLarge (line.length + newlineAt + 1))
        rest := available :: chunks
        held := line.length }
      else {
        result := .ok (line ++ available.take newlineAt)
        rest := available.drop (newlineAt + 1) :: chunks
        held := line.length + newlineAt }
    | none =>
      if line.length + available.length + 1 > cap then {
        result := .error (.frameTooLarge (line.length + available.length + 1))
        rest := available :: chunks
        held := line.length }
      else
        let r := readLoop cap (line ++ available) chunks
        { r with held := max line.length r.held }

def readLineCapped (cap : ℕ) (chunks : List (List UInt8)) : Reading := readLoop cap [] chunks

/-! ## The outcome of a stream -/

/-- The bytes before the first newline. -/
def firstLine (stream : List UInt8) : List UInt8 := stream.takeWhile (· ≠ newline)

/-- What reading a line from a stream gives, and what it leaves of the stream. -/
inductive Reads (cap : ℕ) (stream : List UInt8) : Except FrameError (List UInt8) → List UInt8 → Prop
  | line {line rest : List UInt8} : stream = line ++ newline :: rest → newline ∉ line →
      line.length < cap → Reads cap stream (.ok line) rest
  | tooLarge {seen : ℕ} {rest : List UInt8} : stream ≠ [] → cap ≤ (firstLine stream).length →
      Reads cap stream (.error (.frameTooLarge seen)) rest
  | closed {rest : List UInt8} : stream = [] → Reads cap stream (.error .connectionClosed) rest
  | midFrame {rest : List UInt8} : stream ≠ [] → newline ∉ stream → stream.length < cap →
      Reads cap stream (.error (.malformed "connection closed mid-frame")) rest

theorem firstLine_of_notMem (h : newline ∉ line) : firstLine line = line :=
  List.takeWhile_eq_self_iff.mpr fun _ hb => decide_eq_true fun hn => h (hn ▸ hb)

theorem firstLine_append (h : newline ∉ line) (s : List UInt8) :
    firstLine (line ++ s) = line ++ firstLine s :=
  List.takeWhile_append_of_pos fun _ hb => decide_eq_true fun hn => h (hn ▸ hb)

theorem firstLine_cut (h : newline ∉ line) (rest : List UInt8) :
    firstLine (line ++ newline :: rest) = line := by
  rw [firstLine_append h]
  simp [firstLine]

/-- A chunk is cut by its first newline. -/
theorem idxOf?_eq_some {available : List UInt8} {i : ℕ} (h : available.idxOf? newline = some i) :
    ∃ a b, available = a ++ newline :: b ∧ newline ∉ a ∧ a.length = i := by
  obtain ⟨hi, heq, hbefore⟩ := List.idxOf?_eq_some_iff.mp h
  refine ⟨available.take i, available.drop (i + 1), ?_, ?_, ?_⟩
  · rw [← heq, List.getElem_cons_drop, List.take_append_drop]
  · intro hmem
    obtain ⟨j, hj, hget⟩ := List.mem_take_iff_getElem.mp hmem
    exact hbefore j (by omega) hget
  · exact List.length_take_of_le hi.le

/-- **The loop reads what the line so far and the chunks to come make up.** -/
theorem reads_readLoop {chunks : List (List UInt8)} (hne : [] ∉ chunks) (hline : newline ∉ line)
    (hlen : line = [] ∨ line.length < cap) :
    Reads cap (line ++ chunks.flatten) (readLoop cap line chunks).result
      (readLoop cap line chunks).rest.flatten ∧ (readLoop cap line chunks).held ≤ cap := by
  have hheld : line.length ≤ cap := by
    rcases hlen with rfl | h
    · exact Nat.zero_le _
    · exact h.le
  induction chunks generalizing line with
  | nil =>
    simp only [readLoop, List.flatten_nil, List.append_nil]
    refine ⟨?_, hheld⟩
    split_ifs with hempty
    · exact .closed hempty
    · exact .midFrame hempty hline (hlen.resolve_left hempty)
  | cons available chunks ih =>
    obtain ⟨hfull, hne⟩ := not_or.mp (mt List.mem_cons.mpr hne)
    have hstream : line ++ (available :: chunks).flatten ≠ [] := by simp [Ne.symm hfull]
    simp only [readLoop]
    split
    next newlineAt hat =>
      obtain ⟨a, b, rfl, ha, rfl⟩ := idxOf?_eq_some hat
      have hline' : newline ∉ line ++ a := by simp [hline, ha]
      have hcut : line ++ ((a ++ newline :: b) :: chunks).flatten
          = (line ++ a) ++ newline :: (b ++ chunks.flatten) := by simp
      split_ifs with hlarge
      · refine ⟨.tooLarge hstream ?_, hheld⟩
        rw [hcut, firstLine_cut hline', List.length_append]
        omega
      · have hlen : (line ++ a).length < cap := by rw [List.length_append]; omega
        have hrest : (a ++ newline :: b).drop (a.length + 1) = b := by simp [List.drop_append]
        rw [List.take_left, hrest, hcut]
        exact ⟨.line rfl hline' hlen, List.length_append ▸ hlen.le⟩
    next hat =>
      have hnone : newline ∉ available := List.idxOf?_eq_none_iff.mp hat
      split_ifs with hlarge
      · refine ⟨.tooLarge hstream ?_, hheld⟩
        rw [List.flatten_cons, firstLine_append hline, firstLine_append hnone]
        simp only [List.length_append]
        omega
      · have hlong : (line ++ available).length < cap := by rw [List.length_append]; omega
        have hline' : newline ∉ line ++ available := by simp [hline, hnone]
        obtain ⟨hreads, hmost⟩ := ih hne hline' (.inr hlong) hlong.le
        rw [List.flatten_cons, ← List.append_assoc]
        exact ⟨hreads, Nat.max_le.mpr ⟨hheld, hmost⟩⟩

/-- **Reading a line does not depend on the chunks.**  The line is read where it fits; where `cap`
bytes come before a newline the frame is too large, and otherwise the stream ends early. -/
theorem read_line_capped_chunks (cap : ℕ) (chunks : List (List UInt8)) (hne : [] ∉ chunks) :
    let r := readLineCapped cap chunks
    let stream := chunks.flatten
    (∀ line, r.result = .ok line ↔
      newline ∈ stream ∧ line = firstLine stream ∧ line.length < cap) ∧
    (∀ line, r.result = .ok line → stream = line ++ newline :: r.rest.flatten) ∧
    ((∃ seen, r.result = .error (.frameTooLarge seen)) ↔
      stream ≠ [] ∧ cap ≤ (firstLine stream).length) ∧
    (r.result = .error .connectionClosed ↔ stream = []) ∧
    (r.result = .error (.malformed "connection closed mid-frame") ↔
      stream ≠ [] ∧ newline ∉ stream ∧ stream.length < cap) ∧
    r.held ≤ cap := by
  intro r stream
  obtain ⟨hreads, hheld⟩ : Reads cap ([] ++ stream) r.result r.rest.flatten ∧ r.held ≤ cap :=
    reads_readLoop hne List.not_mem_nil (.inl rfl)
  rw [List.nil_append] at hreads
  generalize r.result = result, r.rest.flatten = rest at hreads ⊢
  cases hreads with
  | line hcut hnl hlen =>
    have hfirst := firstLine_cut hnl rest
    rw [← hcut] at hfirst
    grind
  | tooLarge hstream hlen =>
    grind [firstLine_of_notMem]
  | closed h => grind
  | midFrame hstream hnl hlen =>
    grind [firstLine_of_notMem]

/-- A line that arrives in two chunks. -/
theorem read_line_capped_chunks_two : (readLineCapped 2 [[97], [10, 98]]).result = .ok [97] :=
  ((read_line_capped_chunks 2 [[97], [10, 98]] (by decide)).1 [97]).mpr (by decide)

/-! ## A stream of frames -/

/-- A frame is one line; its terminator counts. -/
def encodeFrame (cap : ℕ) (frame : Value) : Except FrameError (List UInt8) :=
  let encoded := frame.toVec ++ [newline]
  if encoded.length > cap then .error (.frameTooLarge encoded.length) else .ok encoded

/-- What `n` calls return.  A chunk that is used up is not seen again. -/
def receive (cap : ℕ) : ℕ → List (List UInt8) → List (Except FrameError (List UInt8))
  | 0, _ => []
  | n + 1, chunks =>
    let r := readLineCapped cap chunks
    r.result :: receive cap n (r.rest.filter (· ≠ []))

theorem Reads.cut {rest tail : List UInt8} {result : Except FrameError (List UInt8)}
    (h : Reads cap (line ++ newline :: tail) result rest) (hline : newline ∉ line)
    (hlen : line.length < cap) : result = .ok line ∧ rest = tail := by
  have hfirst := firstLine_cut hline tail
  cases h with
  | line hcut hnl =>
    rw [hcut, firstLine_cut hnl] at hfirst
    simpa [hfirst] using hcut.symm
  | tooLarge _ hlarge => exact absurd hlen (hfirst ▸ hlarge).not_gt
  | closed h => simp at h
  | midFrame _ hnl => simp at hnl

/-- **Frames arrive as they were sent,** however the stream is cut into chunks; then it is closed. -/
theorem receive_frames {frames : List Value} {chunks : List (List UInt8)} (hne : [] ∉ chunks)
    (hsent : ∀ frame ∈ frames, encodeFrame cap frame = .ok (frame.toVec ++ [newline]))
    (hchunks : chunks.flatten = frames.flatMap (·.toVec ++ [newline])) :
    receive cap (frames.length + 1) chunks
      = frames.map (.ok ·.toVec) ++ [.error .connectionClosed] := by
  induction frames generalizing chunks with
  | nil =>
    cases chunks with
    | nil => rfl
    | cons => simp_all
  | cons frame frames ih =>
    obtain ⟨hframe, hsent⟩ := List.forall_mem_cons.mp hsent
    rw [encodeFrame, List.length_append, List.length_singleton] at hframe
    split_ifs at hframe
    have hline : newline ∉ frame.toVec :=
      mt newlineByte_mem_utf8 (Plain.newline_notMem frame.print_no_control)
    have hreads : Reads cap ([] ++ chunks.flatten) _ _ :=
      (reads_readLoop hne List.not_mem_nil (.inl rfl)).1
    rw [List.nil_append, hchunks, List.flatMap_cons, List.append_assoc, List.singleton_append] at hreads
    obtain ⟨hresult, hrest⟩ := hreads.cut hline (by omega)
    rw [List.length_cons, receive, readLineCapped, hresult, List.map_cons, List.cons_append,
      ih (by simp) hsent (by rw [List.flatten_filter_ne_nil, hrest])]

theorem receive_frames_one : receive 5 2 [[110, 117], [108, 108, 10]] =
    [.ok [110, 117, 108, 108], .error .connectionClosed] :=
  @receive_frames 5 [.null] _ (by decide) (by decide) (by decide)

end Node
