import Mathlib.Data.List.DropRight
import Mathlib.Data.List.Induction
import Boole.Library.Json

/-!
# Library/LineLog — newline-terminated logs and torn appends

A log is text with one record per line, each ended by a newline.  An append that is interrupted
leaves some prefix of its bytes behind; cutting a log back to its last newline (`stablePrefix`)
removes what was torn and nothing else: **after an interrupted append of a line, the stable prefix
is the log with the line or the log without it** (`stablePrefix_torn`).
-/

namespace Library

variable {l s : List Char} {ls : List (List Char)}

open Json

/-! ## Lines -/

/-- A line without the carriage return before its newline. -/
def stripCr (l : List Char) : List Char := if l.getLast? = some '\r' then l.dropLast else l

/-- Read lines after the characters of the current one. -/
def readLines (acc : List Char) : List Char → List (List Char)
  | [] => if acc = [] then [] else [acc]
  | c :: s => if c = '\n' then stripCr acc :: readLines [] s else readLines (acc ++ [c]) s

/-- The lines of a text. -/
def lines (s : List Char) : List (List Char) := readLines [] s

/-- One record per line. -/
def terminate (ls : List (List Char)) : List Char := ls.flatMap fun l => l ++ ['\n']

/-- A record that is one line: no control characters. -/
def Plain (l : List Char) : Prop := ∀ c ∈ l, 32 ≤ c.toNat

/-- A log that ends where a record ends. -/
def Terminated (s : List Char) : Prop := s = [] ∨ s.getLast? = some '\n'

theorem Plain.newline_notMem (h : Plain l) : '\n' ∉ l :=
  fun hmem => absurd (h _ hmem) (by decide)

theorem Plain.stripCr (h : Plain l) : stripCr l = l := by
  rw [Library.stripCr, if_neg]
  intro hlast
  exact absurd (h _ (List.mem_of_getLast? hlast)) (by decide)

theorem readLines_line (hl : '\n' ∉ l) (acc s : List Char) :
    readLines acc (l ++ '\n' :: s) = stripCr (acc ++ l) :: readLines [] s := by
  induction l generalizing acc with
  | nil => simp [readLines]
  | cons c l ih =>
    rw [List.mem_cons, not_or] at hl
    rw [List.cons_append, readLines, if_neg (Ne.symm hl.1), ih hl.2, List.append_assoc,
      List.singleton_append]

theorem readLines_append (acc s t : List Char) :
    readLines acc (s ++ '\n' :: t) = readLines acc (s ++ ['\n']) ++ readLines [] t := by
  induction s generalizing acc with
  | nil => simp [readLines]
  | cons c s ih =>
    simp only [List.cons_append, readLines]
    split
    · rw [ih, List.cons_append]
    · exact ih _

/-- **A line appended to a terminated log is one more line.** -/
theorem lines_snoc (hs : Terminated s) (hl : Plain l) :
    lines (s ++ (l ++ ['\n'])) = lines s ++ [l] := by
  have hone : readLines [] (l ++ ['\n']) = [l] := by
    rw [readLines_line hl.newline_notMem, List.nil_append, hl.stripCr]
    rfl
  rcases hs with rfl | hlast
  · exact hone
  · obtain ⟨r, rfl⟩ := List.getLast?_eq_some_iff.mp hlast
    rw [lines, List.append_assoc, List.singleton_append, readLines_append, hone]
    rfl

theorem terminated_append (s l : List Char) : Terminated (s ++ (l ++ ['\n'])) :=
  .inr (by simp)

theorem terminated_terminate (ls : List (List Char)) : Terminated (terminate ls) := by
  induction ls using List.reverseRecOn with
  | nil => exact .inl rfl
  | append_singleton ls l _ =>
    rw [terminate, List.flatMap_append, List.flatMap_singleton]
    exact terminated_append _ _

/-- **The lines of a written log are its records.** -/
theorem lines_terminate (h : ∀ l ∈ ls, Plain l) :
    lines (terminate ls) = ls := by
  induction ls using List.reverseRecOn with
  | nil => rfl
  | append_singleton ls l ih =>
    have hrest := ih fun l' hl' => h l' (List.mem_append_left _ hl')
    have hsplit : terminate (ls ++ [l]) = terminate ls ++ (l ++ ['\n']) := by simp [terminate]
    rw [hsplit, lines_snoc (terminated_terminate ls) (h l (by simp)), hrest]

/-! ## Bytes -/

/-- The byte of a newline. -/
def newlineByte : UInt8 := 10

theorem newlineByte_mem_encodeChar {c : Char} (h : newlineByte ∈ String.utf8EncodeChar c) :
    c = '\n' := by
  -- Only a one-byte encoding holds a byte below 128.
  have big (n : ℕ) (hn : 128 ≤ n % 256) : newlineByte ≠ UInt8.ofNat n := by
    intro heq
    have := congrArg UInt8.toNat heq
    exact absurd this (by simp [newlineByte]; omega)
  rw [String.utf8EncodeChar.eq_1] at h
  split at h
  · have hval := congrArg UInt8.toNat (List.mem_singleton.mp h)
    rw [UInt8.toNat_ofNat', Nat.mod_eq_of_lt (by omega)] at hval
    exact Char.ext (UInt32.toNat_inj.mp hval.symm)
  · exfalso
    split at h
    · simp only [List.mem_cons, List.not_mem_nil, or_false] at h
      rcases h with h | h <;> exact big _ (by omega) h
    · split at h
      · simp only [List.mem_cons, List.not_mem_nil, or_false] at h
        rcases h with h | h | h <;> exact big _ (by omega) h
      · simp only [List.mem_cons, List.not_mem_nil, or_false] at h
        rcases h with h | h | h | h <;> exact big _ (by omega) h

theorem newlineByte_mem_utf8 (h : newlineByte ∈ utf8 s) : '\n' ∈ s := by
  obtain ⟨c, hc, hb⟩ := List.mem_flatMap.mp h
  exact newlineByte_mem_encodeChar hb ▸ hc

theorem utf8_newline : utf8 ['\n'] = [newlineByte] := by decide

/-- The bytes up to and with the last newline: what a reader takes of a log. -/
def stablePrefix (bytes : List UInt8) : List UInt8 := bytes.rdropWhile (· != newlineByte)

/-- Bytes after a terminated log that hold no newline are cut off. -/
theorem stablePrefix_append {torn : List UInt8} (hs : Terminated s) (ht : newlineByte ∉ torn) :
    stablePrefix (utf8 s ++ torn) = utf8 s := by
  induction torn using List.reverseRecOn with
  | nil =>
    rw [List.append_nil]
    rcases hs with rfl | hlast
    · rfl
    · obtain ⟨r, rfl⟩ := List.getLast?_eq_some_iff.mp hlast
      rw [utf8_append, utf8_newline, stablePrefix]
      simp
  | append_singleton torn b ih =>
    have hb : b ≠ newlineByte := fun heq => ht (by simp [heq])
    rw [stablePrefix, ← List.append_assoc, List.rdropWhile_concat, if_pos (bne_iff_ne.mpr hb)]
    exact ih fun hmem => ht (List.mem_append_left _ hmem)

theorem stablePrefix_utf8 (hs : Terminated s) :
    stablePrefix (utf8 s) = utf8 s := by
  simpa using stablePrefix_append hs (List.not_mem_nil : newlineByte ∉ [])

/-- **An interrupted append of a line leaves, up to its last newline, the log with the line or the
log as it was.** -/
theorem stablePrefix_torn {torn : List UInt8} (hs : Terminated s) (hl : Plain l)
    (ht : torn <+: utf8 (l ++ ['\n'])) :
    stablePrefix (utf8 s ++ torn) = utf8 s ∨
      torn = utf8 (l ++ ['\n']) ∧ stablePrefix (utf8 s ++ torn) = utf8 (s ++ (l ++ ['\n'])) := by
  rw [utf8_append, utf8_newline, List.prefix_concat_iff] at ht
  rcases ht with rfl | ht
  · right
    rw [← utf8_newline, ← utf8_append, ← utf8_append]
    exact ⟨rfl, stablePrefix_utf8 (terminated_append s l)⟩
  · exact .inl (stablePrefix_append hs fun hmem =>
      hl.newline_notMem (newlineByte_mem_utf8 (ht.subset hmem)))

theorem stablePrefix_idem (bytes : List UInt8) :
    stablePrefix (stablePrefix bytes) = stablePrefix bytes :=
  List.rdropWhile_idempotent _ _

theorem length_stablePrefix_le (bytes : List UInt8) : (stablePrefix bytes).length ≤ bytes.length :=
  (List.rdropWhile_prefix _ _).length_le

/-- What is left of a log ends where a record ends. -/
theorem terminated_of_stablePrefix {bytes : List UInt8} (h : stablePrefix bytes = utf8 s) :
    Terminated s := by
  rcases List.eq_nil_or_concat s with rfl | ⟨r, c, rfl⟩
  · exact .inl rfl
  · rw [List.concat_eq_append, utf8_append] at h
    have hne : String.utf8EncodeChar c ≠ [] := String.utf8EncodeChar_ne_nil
    have hc : utf8 [c] = String.utf8EncodeChar c := List.flatMap_singleton _ _
    rw [hc] at h
    have hne' : stablePrefix bytes ≠ [] := by simp [h]
    have hlast : (stablePrefix bytes).getLast hne' = newlineByte := by
      have := List.rdropWhile_last_not (· != newlineByte) bytes hne'
      rw [bne_iff_ne, not_not] at this
      exact this
    have hmem : newlineByte ∈ String.utf8EncodeChar c := by
      simp only [h, List.getLast_append_of_ne_nil _ hne] at hlast
      exact hlast ▸ List.getLast_mem hne
    rw [newlineByte_mem_encodeChar hmem]
    exact .inr (by simp)

theorem length_utf8_terminate (ls : List (List Char)) :
    (utf8 (terminate ls)).length = (ls.map fun l => (utf8 l).length + 1).sum := by
  induction ls with
  | nil => rfl
  | cons l ls ih =>
    rw [terminate] at ih ⊢
    rw [List.flatMap_cons, utf8_append, utf8_append, utf8_newline, List.length_append, ih,
      List.length_append, List.map_cons, List.sum_cons, List.length_singleton]

/-! ## Logs of records -/

/-- How large a log may be: its bytes, its lines, and the bytes of a line. -/
structure LogLimits where
  bytes : ℕ
  count : ℕ
  line : ℕ

/-- A log that ends where a record ends. -/
def Stable (bytes : List UInt8) : Prop := ∃ s, bytes = utf8 s ∧ Terminated s

/-- **A log holds these records,** within its limits, up to a torn tail. -/
def LogHolds {α ε : Type*} (parse : List Char → Except ε α) (limits : LogLimits)
    (bytes : List UInt8) (xs : List α) : Prop :=
  ∃ raw, stablePrefix bytes = utf8 raw ∧ bytes.length ≤ limits.bytes ∧
    (lines raw).map parse = xs.map .ok ∧ (lines raw).length ≤ limits.count ∧
    ∀ l ∈ lines raw, (utf8 l).length ≤ limits.line

section Log

variable {α ε : Type*} {parse : List Char → Except ε α} {limits : LogLimits}
  {bytes torn : List UInt8} {xs : List α} {l : List Char} {x : α}

theorem LogHolds.stablePrefix (h : LogHolds parse limits bytes xs) :
    LogHolds parse limits (stablePrefix bytes) xs ∧ Stable (Library.stablePrefix bytes) := by
  obtain ⟨raw, hraw, hlen, hparse, hcount, hline⟩ := h
  exact ⟨⟨raw, by rw [stablePrefix_idem, hraw], (length_stablePrefix_le bytes).trans hlen, hparse,
    hcount, hline⟩, raw, hraw, terminated_of_stablePrefix hraw⟩

/-- A record appended to a log that has room for it is one more record. -/
theorem LogHolds.snoc (h : LogHolds parse limits bytes xs) (hs : Stable bytes) (hl : Plain l)
    (hx : parse l = .ok x) (hline : (utf8 l).length ≤ limits.line)
    (hbytes : bytes.length + (utf8 l).length < limits.bytes) (hcount : xs.length < limits.count) :
    LogHolds parse limits (bytes ++ utf8 (l ++ ['\n'])) (xs ++ [x]) ∧
      Stable (bytes ++ utf8 (l ++ ['\n'])) := by
  obtain ⟨s, rfl, hterm⟩ := hs
  obtain ⟨raw, hraw, hlen, hparse, hcount', hlines⟩ := h
  rw [stablePrefix_utf8 hterm] at hraw
  obtain rfl := utf8_injective hraw
  rw [← utf8_append]
  refine ⟨⟨s ++ (l ++ ['\n']), stablePrefix_utf8 (terminated_append s l), ?_, ?_, ?_, ?_⟩,
    _, rfl, terminated_append s l⟩
  · rw [utf8_append, utf8_append, utf8_newline, List.length_append, List.length_append,
      List.length_singleton]
    omega
  · rw [lines_snoc hterm hl, List.map_append, hparse, List.map_append, List.map_singleton,
      List.map_singleton, hx]
  · have hlength : (lines s).length = xs.length := by simpa using congrArg List.length hparse
    rw [lines_snoc hterm hl, List.length_append, List.length_singleton]
    omega
  · intro l' hl'
    rw [lines_snoc hterm hl, List.mem_append, List.mem_singleton] at hl'
    rcases hl' with hl' | rfl
    · exact hlines l' hl'
    · exact hline

/-- **A torn append is no append,** unless all of it is there. -/
theorem LogHolds.append_torn (h : LogHolds parse limits bytes xs) (hs : Stable bytes) (hl : Plain l)
    (hbytes : bytes.length + (utf8 l).length < limits.bytes)
    (ht : torn <+: utf8 (l ++ ['\n'])) :
    LogHolds parse limits (bytes ++ torn) xs ∨ torn = utf8 (l ++ ['\n']) := by
  obtain ⟨s, rfl, hterm⟩ := hs
  obtain ⟨raw, hraw, hlen, hrest⟩ := h
  rcases stablePrefix_torn hterm hl ht with hstable | ⟨hfull, -⟩
  · refine .inl ⟨raw, ?_, ?_, hrest⟩
    · rw [hstable, ← hraw, stablePrefix_utf8 hterm]
    · have := ht.length_le
      rw [utf8_append, utf8_newline, List.length_append, List.length_singleton] at this
      rw [List.length_append]
      omega
  · exact .inr hfull

/-- A log that is written anew holds what was written. -/
theorem logHolds_terminate (hl : ∀ l ∈ ls, Plain l) (hparse : ls.map parse = xs.map .ok)
    (hbytes : (ls.map fun l => (utf8 l).length + 1).sum ≤ limits.bytes)
    (hcount : ls.length ≤ limits.count) (hline : ∀ l ∈ ls, (utf8 l).length ≤ limits.line) :
    LogHolds parse limits (utf8 (terminate ls)) xs ∧ Stable (utf8 (terminate ls)) := by
  have hterm := terminated_terminate ls
  refine ⟨⟨terminate ls, stablePrefix_utf8 hterm, ?_, ?_, ?_, ?_⟩, _, rfl, hterm⟩
  · rw [length_utf8_terminate]
    exact hbytes
  all_goals rw [lines_terminate hl]
  exacts [hparse, hcount, hline]

/-! ### Logs without limits -/

/-- The lines a reader takes that skips empty ones. -/
def recordLines (raw : List Char) : List (List Char) := (lines raw).filter (· ≠ [])

theorem recordLines_snoc (hs : Terminated s) (hl : Plain l) (hne : l ≠ []) :
    recordLines (s ++ (l ++ ['\n'])) = recordLines s ++ [l] := by
  simp [recordLines, lines_snoc hs hl, hne]

/-- **A log holds these records,** up to a torn tail. -/
def Logged (parse : List Char → Except ε α) (bytes : List UInt8) (xs : List α) : Prop :=
  ∃ raw, fromUtf8 (Library.stablePrefix bytes) = some raw ∧
    (recordLines raw).map parse = xs.map .ok

theorem logged_nil : Logged parse [] [] := ⟨[], fromUtf8_eq_some.mpr rfl, rfl⟩

theorem Logged.stablePrefix (h : Logged parse bytes xs) :
    Logged parse (Library.stablePrefix bytes) xs ∧ Stable (Library.stablePrefix bytes) := by
  obtain ⟨raw, hraw, hparse⟩ := h
  have hbytes := fromUtf8_eq_some.mp hraw
  exact ⟨⟨raw, by rw [stablePrefix_idem, hraw], hparse⟩, raw, hbytes,
    terminated_of_stablePrefix hbytes⟩

/-- Every record was read from some line. -/
theorem Logged.exists_line (h : Logged parse bytes xs) (hx : x ∈ xs) : ∃ l, parse l = .ok x := by
  obtain ⟨raw, -, hparse⟩ := h
  have hmem : Except.ok x ∈ (recordLines raw).map parse := by
    rw [hparse]
    exact List.mem_map_of_mem hx
  obtain ⟨l, -, hl⟩ := List.mem_map.mp hmem
  exact ⟨l, hl⟩

theorem Logged.snoc (h : Logged parse bytes xs) (hs : Stable bytes) (hl : Plain l) (hne : l ≠ [])
    (hx : parse l = .ok x) :
    Logged parse (bytes ++ utf8 (l ++ ['\n'])) (xs ++ [x]) ∧
      Stable (bytes ++ utf8 (l ++ ['\n'])) := by
  obtain ⟨s, rfl, hterm⟩ := hs
  obtain ⟨raw, hraw, hparse⟩ := h
  rw [fromUtf8_eq_some, stablePrefix_utf8 hterm] at hraw
  obtain rfl := utf8_injective hraw
  rw [← utf8_append]
  refine ⟨⟨s ++ (l ++ ['\n']), fromUtf8_eq_some.mpr (stablePrefix_utf8 (terminated_append s l)), ?_⟩,
    _, rfl, terminated_append s l⟩
  rw [recordLines_snoc hterm hl hne, List.map_append, hparse, List.map_append, List.map_singleton,
    List.map_singleton, hx]

/-- An interrupted append leaves the records as they were, or the whole line is there. -/
theorem Logged.append_torn (h : Logged parse bytes xs) (hs : Stable bytes) (hl : Plain l)
    (ht : torn <+: utf8 (l ++ ['\n'])) :
    Logged parse (bytes ++ torn) xs ∨ torn = utf8 (l ++ ['\n']) := by
  obtain ⟨s, rfl, hterm⟩ := hs
  obtain ⟨raw, hraw, hparse⟩ := h
  rcases stablePrefix_torn hterm hl ht with hstable | ⟨hfull, -⟩
  · exact .inl ⟨raw, by rw [hstable, ← hraw, stablePrefix_utf8 hterm], hparse⟩
  · exact .inr hfull

/-- A log that is written anew holds what was written. -/
theorem logged_terminate (hl : ∀ l ∈ ls, Plain l) (hne : ∀ l ∈ ls, l ≠ [])
    (hparse : ls.map parse = xs.map .ok) :
    Logged parse (utf8 (terminate ls)) xs ∧ Stable (utf8 (terminate ls)) := by
  have hterm := terminated_terminate ls
  refine ⟨⟨terminate ls, fromUtf8_eq_some.mpr (stablePrefix_utf8 hterm), ?_⟩, _, rfl, hterm⟩
  rw [recordLines, lines_terminate hl, List.filter_eq_self.mpr (by simpa using hne), hparse]

end Log

/-! ## Interrupted writes -/

section Crash

variable {D W : Type*} (write : D → W → D) (torn : D → W → D → Prop)

/-- **What a crash in a sequence of writes leaves behind:** the writes before some point are done,
the one at that point may be torn, and the later ones have not begun. -/
inductive Crashed : D → List W → D → Prop
  | before (d : D) (ws : List W) : Crashed d ws d
  | during {d d' : D} {w : W} (ws : List W) (h : torn d w d') : Crashed d (w :: ws) d'
  | later {d d' : D} {w : W} {ws : List W} (h : Crashed (write d w) ws d') :
      Crashed d (w :: ws) d'

variable {write torn}

theorem Crashed.eq_of_nil {d d' : D} (h : Crashed write torn d [] d') : d' = d := by
  cases h
  rfl

/-- **Writes that cannot be torn are done one after the other,** and a crash falls between two of
them. -/
theorem Crashed.exists_prefix {d d' : D} {ws : List W} (h : Crashed write torn d ws d')
    (hatomic : ∀ w ∈ ws, ∀ d d', torn d w d' → d' = d ∨ d' = write d w) :
    ∃ done, done <+: ws ∧ d' = done.foldl write d := by
  induction h with
  | before d ws => exact ⟨[], List.nil_prefix, rfl⟩
  | @during d d' w ws h =>
    rcases hatomic w List.mem_cons_self d d' h with rfl | rfl
    · exact ⟨[], List.nil_prefix, rfl⟩
    · exact ⟨[w], ⟨ws, rfl⟩, rfl⟩
  | @later d d' w ws _ ih =>
    obtain ⟨done, ⟨rest, hrest⟩, heq⟩ := ih fun w' hw' => hatomic w' (List.mem_cons_of_mem _ hw')
    exact ⟨w :: done, ⟨rest, by rw [List.cons_append, hrest]⟩, heq⟩

end Crash

end Library
