import ModalTableau.Batch

/-!
# Batches, line by line

The lines of two texts joined by a line feed are the lines of the first and then those of the second
(`Text.splitLines_append`), so a batch is checked piece by piece and its lines are only numbered on.
Lines are numbered before the blank ones and the comments are left out. Where a line ends with a
carriage return, trimming takes it away (`Text.trim_concat`), so it does not matter whether the
carriage return counts as a part of the line or of its end, and what follows the last line feed is left
out if it is empty. So a batch may be read from all that stands between line feeds
(`Batch.lines_eq`).
-/

namespace ModalTableau

namespace Text

variable {c : Char} {cs line : List Char} {n i : Nat}

-- ---------------------------------------------------------------------------
-- Lines
-- ---------------------------------------------------------------------------

/-- A line ends with the text, or at a line feed with or without a carriage return before it. -/
inductive LineEnd : List Char → Prop
  | last : LineEnd []
  | feed (rest : List Char) : LineEnd ('\n' :: rest)
  | returnFeed (rest : List Char) : LineEnd ('\r' :: '\n' :: rest)

/-- The characters are the `n`-th line of the text, counted from one. -/
inductive IsLine : List Char → Nat → List Char → Prop
  | first {line rest : List Char} (unbroken : '\n' ∉ line) (ends : LineEnd rest) :
      IsLine (line ++ rest) 1 line
  | next {skipped rest line : List Char} {n : Nat} (unbroken : '\n' ∉ skipped)
      (later : IsLine rest n line) : IsLine (skipped ++ '\n' :: rest) (n + 1) line

theorem splitLines_feed (cs : List Char) : splitLines ('\n' :: cs) = [] :: splitLines cs := rfl

theorem splitLines_cons {first : List Char} {more : List (List Char)} (hc : c ≠ '\n')
    (h : splitLines cs = first :: more) : splitLines (c :: cs) = (c :: first) :: more := by
  rw [splitLines, h]
  exact hc

theorem exists_splitLines (cs : List Char) : ∃ first more, splitLines cs = first :: more := by
  induction cs with
  | nil => exact ⟨_, _, rfl⟩
  | cons c rest ih =>
    by_cases hc : c = '\n'
    · subst hc
      exact ⟨_, _, splitLines_feed rest⟩
    · obtain ⟨first, more, h⟩ := ih
      exact ⟨_, _, splitLines_cons hc h⟩

theorem splitLines_append (a b : List Char) :
    splitLines (a ++ '\n' :: b) = splitLines a ++ splitLines b := by
  induction a with
  | nil => rfl
  | cons c rest ih =>
    by_cases hc : c = '\n'
    · subst hc
      rw [List.cons_append, splitLines_feed, splitLines_feed, ih, List.cons_append]
    · obtain ⟨first, more, h⟩ := exists_splitLines rest
      rw [h, List.cons_append] at ih
      rw [List.cons_append, splitLines_cons hc ih, splitLines_cons hc h, List.cons_append]

theorem splitLines_of_not_mem (h : '\n' ∉ line) : splitLines line = [line] := by
  induction line with
  | nil => rfl
  | cons c rest ih =>
    rw [List.mem_cons, not_or] at h
    exact splitLines_cons (Ne.symm h.1) (ih h.2)

theorem length_splitLines (cs : List Char) : (splitLines cs).length = cs.count '\n' + 1 := by
  induction cs with
  | nil => rfl
  | cons c rest ih =>
    by_cases hc : c = '\n'
    · subst hc
      rw [splitLines_feed, List.length_cons, ih, List.count_cons_self]
    · obtain ⟨first, more, h⟩ := exists_splitLines rest
      rw [splitLines_cons hc h, List.count_cons_of_ne hc, ← ih, h]
      rfl

-- ---------------------------------------------------------------------------
-- Trimming
-- ---------------------------------------------------------------------------

theorem trim_concat (h : isBlank c) : trim (String.ofList (cs ++ [c])) = trim (String.ofList cs) := by
  simp only [trim, String.toList_ofList, List.dropWhile_append]
  cases hcs : cs.dropWhile isBlank with
  | nil => simp [h]
  | cons x rest => simp [h]

theorem trim_dropReturn (line : List Char) :
    trim (String.ofList (dropReturn line)) = trim (String.ofList line) := by
  unfold dropReturn
  split
  next h =>
    obtain ⟨start, rfl⟩ := List.getLast?_eq_some_iff.mp h
    rw [List.dropLast_concat, trim_concat (by decide)]
  next => rfl

theorem IsLine.exists_getElem? (h : IsLine cs n line) : ∃ i full, n = i + 1 ∧
    (splitLines cs)[i]? = some full ∧ trim (String.ofList full) = trim (String.ofList line) := by
  induction h with
  | @first line rest unbroken ends =>
    cases ends with
    | last => exact ⟨0, line, rfl, by simp [splitLines_of_not_mem unbroken], rfl⟩
    | feed rest =>
      exact ⟨0, line, rfl, by simp [splitLines_append, splitLines_of_not_mem unbroken], rfl⟩
    | returnFeed rest =>
      have hfull : '\n' ∉ line ++ ['\r'] := by simpa using unbroken
      refine ⟨0, line ++ ['\r'], rfl, ?_, trim_concat (by decide)⟩
      rw [show line ++ '\r' :: '\n' :: rest = (line ++ ['\r']) ++ '\n' :: rest by simp,
        splitLines_append, splitLines_of_not_mem hfull]
      rfl
  | @next skipped rest line n unbroken _ ih =>
    obtain ⟨i, full, rfl, hfull, htrim⟩ := ih
    refine ⟨i + 1, full, rfl, ?_, htrim⟩
    rw [splitLines_append, splitLines_of_not_mem unbroken]
    exact hfull

theorem isLine_of_getElem? (h : (splitLines cs)[i]? = some line) : IsLine cs (i + 1) line := by
  induction i generalizing cs with
  | zero =>
    by_cases hcs : '\n' ∈ cs
    · obtain ⟨first, rest, rfl, hfirst⟩ := List.eq_append_cons_of_mem hcs
      rw [splitLines_append, splitLines_of_not_mem hfirst] at h
      obtain rfl : first = line := by simpa using h
      exact .first hfirst (.feed rest)
    · rw [splitLines_of_not_mem hcs] at h
      obtain rfl : cs = line := by simpa using h
      simpa using IsLine.first hcs .last
  | succ i ih =>
    by_cases hcs : '\n' ∈ cs
    · obtain ⟨first, rest, rfl, hfirst⟩ := List.eq_append_cons_of_mem hcs
      rw [splitLines_append, splitLines_of_not_mem hfirst] at h
      exact .next hfirst (ih (by simpa using h))
    · simp [splitLines_of_not_mem hcs] at h

end Text

-- ---------------------------------------------------------------------------
-- Entries
-- ---------------------------------------------------------------------------

namespace Batch

variable {input text : String} {line : Line} {xs ys : List String} {n k : Nat} {service : Service}
  {e : Entry}

def Line.later (line : Line) (k : Nat) : Line := { line with number := line.number + k }

def Entry.later (e : Entry) (k : Nat) : Entry := { e with line := e.line.later k }

theorem number_append : number n (xs ++ ys) = number n xs ++ number (n + xs.length) ys := by
  induction xs generalizing n with
  | nil => rfl
  | cons x rest ih =>
    rw [List.cons_append, number, number, ih, List.cons_append, List.length_cons, Nat.add_assoc,
      Nat.add_comm 1]

theorem number_add : number (n + k) xs = (number n xs).map (·.later k) := by
  induction xs generalizing n with
  | nil => rfl
  | cons x rest ih =>
    rw [number, number, List.map_cons, ← ih, Nat.add_right_comm]
    rfl

theorem mem_number :
    line ∈ number n xs ↔ ∃ i x, xs[i]? = some x ∧ line = ⟨n + i, Text.trim x⟩ := by
  induction xs generalizing n with
  | nil => simp [number]
  | cons x rest ih =>
    rw [number, List.mem_cons, ih]
    constructor
    · rintro (rfl | ⟨i, y, hy, rfl⟩)
      · exact ⟨0, x, rfl, rfl⟩
      · exact ⟨i + 1, y, hy, by rw [Nat.add_right_comm, Nat.add_assoc]⟩
    · rintro ⟨i, y, hy, rfl⟩
      cases i with
      | zero =>
        obtain rfl : x = y := by simpa using hy
        exact .inl rfl
      | succ i => exact .inr ⟨i, y, by simpa using hy, by rw [Nat.add_right_comm, Nat.add_assoc]⟩

theorem pairwise_number : (number n xs).Pairwise (·.number < ·.number) := by
  induction xs generalizing n with
  | nil => exact .nil
  | cons x rest ih =>
    refine .cons (fun line h => ?_) ih
    obtain ⟨i, y, -, rfl⟩ := mem_number.mp h
    exact Nat.lt_of_lt_of_le (Nat.lt_succ_self n) (Nat.le_add_right _ i)

theorem isFormula_iff :
    isFormula text = true ↔ text ≠ "" ∧ text.toList.head? ≠ some '#' := by
  rw [ne_eq, ← String.toList_eq_nil_iff, isFormula]
  cases text.toList with
  | nil => simp
  | cons c rest =>
    by_cases hc : c = '#'
    · simp [hc]
    · simp [hc]

theorem filter_number_endedLines (pieces : List (List Char)) (n : Nat) :
    (number n ((Text.endedLines pieces).map String.ofList)).filter (isFormula ·.text) =
      (number n (pieces.map String.ofList)).filter (isFormula ·.text) := by
  fun_induction Text.endedLines pieces generalizing n with
  | case1 => rfl
  | case2 => rfl
  | case3 => rfl
  | case4 line rest _ _ ih =>
    simp only [List.map_cons, number, List.filter_cons, Text.trim_dropReturn, ih]

theorem lines_eq (input : String) : lines input =
    (number 1 ((Text.splitLines input.toList).map String.ofList)).filter (isFormula ·.text) :=
  filter_number_endedLines _ 1

theorem lines_append (a b : String) :
    lines (a ++ "\n" ++ b) = lines a ++ (lines b).map (·.later (a.toList.count '\n' + 1)) := by
  have hsplit : Text.splitLines (a ++ "\n" ++ b).toList =
      Text.splitLines a.toList ++ Text.splitLines b.toList := by
    simp [Text.splitLines_append]
  rw [lines_eq, lines_eq, lines_eq, hsplit, List.map_append, number_append, List.filter_append,
    List.length_map, Text.length_splitLines, number_add, List.filter_map]
  rfl

theorem run_append (service : Service) (a b : String) :
    run service (a ++ "\n" ++ b) =
      run service a ++ (run service b).map (·.later (a.toList.count '\n' + 1)) := by
  simp only [run, Service.each_eq]
  rw [lines_append, List.map_append, List.map_map, List.map_map]
  rfl

theorem mem_lines : line ∈ lines input ↔ ∃ i full,
    (Text.splitLines input.toList)[i]? = some full ∧
      line = ⟨i + 1, Text.trim (String.ofList full)⟩ ∧ isFormula line.text = true := by
  rw [lines_eq, List.mem_filter, mem_number]
  simp only [List.getElem?_map, Option.map_eq_some_iff]
  constructor
  · rintro ⟨⟨i, x, ⟨full, hfull, rfl⟩, rfl⟩, hf⟩
    exact ⟨i, full, hfull, by rw [Nat.add_comm], hf⟩
  · rintro ⟨i, full, hfull, rfl, hf⟩
    exact ⟨⟨i, _, ⟨full, hfull, rfl⟩, by rw [Nat.add_comm]⟩, hf⟩

theorem mem_run : e ∈ run service input ↔
    e.line ∈ lines input ∧ e.result = Report.solve service e.line.text := by
  rw [run, Service.each_eq, List.mem_map]
  constructor
  · rintro ⟨line, hline, rfl⟩
    exact ⟨hline, rfl⟩
  · rintro ⟨hline, hresult⟩
    refine ⟨e.line, hline, ?_⟩
    rw [← hresult]

theorem text_eq_of_isLine (h : Text.IsLine input.toList n text.toList)
    (hline : line ∈ lines input) (hn : line.number = n) : line.text = Text.trim text := by
  obtain ⟨i, full, rfl, hfull, htrim⟩ := h.exists_getElem?
  obtain ⟨i', full', hfull', rfl, -⟩ := mem_lines.mp hline
  obtain rfl : i' = i := Nat.succ.inj hn
  obtain rfl : full' = full := Option.some.inj (hfull'.symm.trans hfull)
  rw [String.ofList_toList] at htrim
  exact htrim

theorem exists_line_iff (h : Text.IsLine input.toList n text.toList) :
    (∃ line ∈ lines input, line.number = n) ↔
      Text.trim text ≠ "" ∧ (Text.trim text).toList.head? ≠ some '#' := by
  rw [← isFormula_iff]
  constructor
  · rintro ⟨line, hline, hn⟩
    rw [← text_eq_of_isLine h hline hn]
    obtain ⟨-, -, -, -, hf⟩ := mem_lines.mp hline
    exact hf
  · intro hf
    obtain ⟨i, full, rfl, hfull, htrim⟩ := h.exists_getElem?
    rw [String.ofList_toList] at htrim
    exact ⟨_, mem_lines.mpr ⟨i, full, hfull, rfl, htrim ▸ hf⟩, rfl⟩

theorem isLine_of_mem_lines (h : line ∈ lines input) :
    ∃ text : String, Text.IsLine input.toList line.number text.toList := by
  obtain ⟨i, full, hfull, rfl, -⟩ := mem_lines.mp h
  exact ⟨String.ofList full, by simpa using Text.isLine_of_getElem? hfull⟩

theorem pairwise_run : (run service input).Pairwise (·.line.number < ·.line.number) := by
  rw [run, Service.each_eq, List.pairwise_map]
  exact pairwise_number.filter _

/-- Of two texts joined by a line feed, the entries are those of the first and then those of the
second, numbered on. In any batch every entry has the result of its own text, the numbers ascend, and
the lines that have an entry, with their trimmed text, are those that are neither blank nor a
comment. -/
theorem run_line_by_line (service : Service) :
    (∀ a b : String, run service (a ++ "\n" ++ b) =
      run service a ++ (run service b).map (·.later (a.toList.count '\n' + 1))) ∧
    ∀ input : String,
      (∀ e ∈ run service input, e.result = Report.solve service e.line.text) ∧
      (run service input).Pairwise (·.line.number < ·.line.number) ∧
      (∀ (n : Nat) (text : String), Text.IsLine input.toList n text.toList →
        ((∃ e ∈ run service input, e.line.number = n) ↔
          Text.trim text ≠ "" ∧ (Text.trim text).toList.head? ≠ some '#') ∧
        ∀ e ∈ run service input, e.line.number = n → e.line.text = Text.trim text) ∧
      ∀ e ∈ run service input,
        ∃ text : String, Text.IsLine input.toList e.line.number text.toList := by
  refine ⟨run_append service, fun input => ⟨fun e he => (mem_run.mp he).2, pairwise_run,
    fun n text h => ⟨?_, fun e he => text_eq_of_isLine h (mem_run.mp he).1⟩,
    fun e he => isLine_of_mem_lines (mem_run.mp he).1⟩⟩
  rw [← exists_line_iff h]
  constructor
  · rintro ⟨e, he, hn⟩
    exact ⟨e.line, (mem_run.mp he).1, hn⟩
  · rintro ⟨line, hline, hn⟩
    exact ⟨⟨line, Report.solve service line.text⟩, mem_run.mpr ⟨hline, rfl⟩, hn⟩

def seam : String := "p\r" ++ "\n" ++ "# none\n q &"

def inParallel : Service := ⟨{}, true, .tasks⟩

theorem run_line_by_line_seam :
    run inParallel seam =
      run inParallel "p\r" ++ (run inParallel "# none\n q &").map (·.later 1) ∧
    Text.IsLine seam.toList 3 " q &".toList ∧
    ∃ e ∈ run inParallel seam,
      e.line = ⟨3, "q &"⟩ ∧ e.result = .error (.malformed .unexpectedEnd) := by
  obtain ⟨joined, single⟩ := run_line_by_line inParallel
  obtain ⟨results, -, entries, -⟩ := single seam
  have hline : Text.IsLine seam.toList 3 " q &".toList :=
    Text.isLine_of_getElem? (show (Text.splitLines seam.toList)[2]? = _ from rfl)
  obtain ⟨entry, own⟩ := entries 3 " q &" hline
  obtain ⟨⟨⟨n, text⟩, result⟩, he, rfl⟩ := entry.mpr ⟨by decide, by decide⟩
  obtain rfl : text = "q &" := own _ he rfl
  have hsolve : Report.solve inParallel "q &" = .error (.malformed .unexpectedEnd) := rfl
  exact ⟨joined "p\r" "# none\n q &", hline, _, he, rfl, (results _ he).trans hsolve⟩

end Batch
end ModalTableau
