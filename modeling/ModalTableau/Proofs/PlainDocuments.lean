import Mathlib.Data.List.TakeDrop
import ModalTableau.Toml.Document

/-!
# Documents of plain lines

A plain line is a bare key and a number, a boolean or a string without escapes, with one space on
either side of the sign between them. A document of such lines is read as its entries, in their order,
if no key is used twice (`Document.ofText?_lines`).
-/

namespace ModalTableau.Toml

variable {c : Char} {cs rest : List Char} {n value : Nat}

-- The readers choose by the first character, which is told apart from all others by a class that it
-- belongs to and they do not.
theorem cons_ne_cons {p : Char → Bool} {x : Char} {xs : List Char} (h : p c) (hx : p x = false) :
    c :: rest ≠ x :: xs := by
  intro heq
  rw [List.head_eq_of_cons_eq heq, hx] at h
  contradiction

theorem dropWhile_isSpace {p : Char → Bool} (h : p c) (hspace : p ' ' = false)
    (htab : p '\t' = false) : (c :: rest).dropWhile isSpace = c :: rest := by
  apply List.dropWhile_cons_of_neg
  simp only [isSpace, Bool.or_eq_true, beq_iff_eq]
  rintro (rfl | rfl)
  · simp [hspace] at h
  · simp [htab] at h

-- ---------------------------------------------------------------------------
-- Numbers
-- ---------------------------------------------------------------------------

theorem hexValue?_of_isDigit (h : c.isDigit) :
    (hexValue? c).filter (· < 10) = some (c.toNat - 48) := by
  have hu : c.toNat ≤ 57 := (Char.isDigit_iff_toNat.mp h).2
  simp [hexValue?, h]
  omega

theorem digitsFrom_cons (h : c.isDigit) :
    digitsFrom 10 value (c :: rest) = digitsFrom 10 (10 * value + (c.toNat - 48)) rest := by
  rw [digitsFrom]
  · rw [hexValue?_of_isDigit h]
  · rintro x xs rfl
    exact absurd h (by decide)

theorem digitsFrom_append (h : ∀ c ∈ cs, c.isDigit) :
    digitsFrom 10 value (cs ++ rest) = digitsFrom 10 (Nat.ofDigitChars 10 cs value) rest := by
  induction cs generalizing value with
  | nil => rfl
  | cons c cs ih =>
    obtain ⟨hc, hcs⟩ := List.forall_mem_cons.mp h
    rw [List.cons_append, digitsFrom_cons hc, ih hcs, Nat.ofDigitChars_cons]
    rfl

theorem digits?_append (rest : List Char) (hcs : cs ≠ []) (h : ∀ c ∈ cs, c.isDigit) :
    digits? 10 (cs ++ '\n' :: rest) = some (Nat.ofDigitChars 10 cs 0, '\n' :: rest) := by
  cases cs with
  | nil => exact absurd rfl hcs
  | cons c cs =>
    obtain ⟨hc, htail⟩ := List.forall_mem_cons.mp h
    rw [List.cons_append, digits?, hexValue?_of_isDigit hc, Option.map_some, digitsFrom_append htail,
      Nat.ofDigitChars_cons]
    simp only [Nat.mul_zero, Nat.zero_add]
    rfl

theorem unsigned?_of_ne (h : c ≠ '0') : unsigned? (c :: rest) = digits? 10 (c :: rest) := by
  rw [unsigned?, decimal?]
  all_goals exact fun _ heq => h (List.head_eq_of_cons_eq heq)

/-- The first digit of a number is no zero, unless the number is zero. -/
theorem exists_toDigits (n : Nat) :
    ∃ d ds, Nat.toDigits 10 n = d :: ds ∧ d.isDigit ∧ (0 < n → d ≠ '0') := by
  induction n using Nat.strongRecOn with
  | ind n ih =>
    rw [Nat.toDigits_eq_if (by decide)]
    split
    next hn => exact ⟨_, [], rfl, by simpa [Nat.isDigit_digitChar] using hn, by simp; omega⟩
    next hn =>
      obtain ⟨d, ds, hds, hd, hpos⟩ := ih (n / 10) (by omega)
      exact ⟨d, _, by rw [hds, List.cons_append], hd, fun _ => hpos (by omega)⟩

theorem unsigned?_toDigits (n : Nat) (rest : List Char) :
    unsigned? (Nat.toDigits 10 n ++ '\n' :: rest) = some (n, '\n' :: rest) := by
  by_cases hn : n = 0
  · subst hn
    rfl
  · obtain ⟨d, ds, hds, -, hd⟩ := exists_toDigits n
    have hdigits : ∀ c ∈ Nat.toDigits 10 n, c.isDigit := fun c hc =>
      Nat.isDigit_of_mem_toDigits (by decide) (by decide) hc
    have hread := digits?_append rest Nat.toDigits_ne_nil hdigits
    rw [Nat.ofDigitChars_ten_toDigits, hds, List.cons_append] at hread
    rw [hds, List.cons_append, unsigned?_of_ne (hd (Nat.pos_of_ne_zero hn)), hread]

theorem quoted?_of_class {p : Char → Bool} (h : p c) (hdouble : p '"' = false)
    (hsingle : p '\x27' = false) : quoted? (c :: rest) = none := by
  rw [quoted?]
  · exact fun _ => cons_ne_cons h hdouble
  · exact fun _ => cons_ne_cons h hsingle

theorem scalar?_of_isDigit (h : c.isDigit) : scalar? (c :: rest) = integer? (c :: rest) := by
  have hstring : string? (c :: rest) = none := by
    rw [string?, quoted?_of_class h (by decide) (by decide)]
    all_goals exact fun _ => cons_ne_cons h (by decide)
  rw [scalar?, hstring]
  · rfl
  all_goals exact fun _ => cons_ne_cons h (by decide)

theorem integer?_of_isDigit (h : c.isDigit) : integer? (c :: rest) =
    (unsigned? (c :: rest)).bind fun (n, rest) =>
      if isInRange n then some (.integer n, rest) else none := by
  rw [integer?]
  · cases unsigned? (c :: rest) <;> rfl
  all_goals exact fun _ => cons_ne_cons h (by decide)

theorem scalar?_toDigits (h : n < 9223372036854775808) :
    scalar? (Nat.toDigits 10 n ++ '\n' :: rest) = some (.integer n, '\n' :: rest) := by
  have hread := unsigned?_toDigits n rest
  have hrange : isInRange n := by simp [isInRange]; omega
  obtain ⟨d, ds, hds, hd, -⟩ := exists_toDigits n
  rw [hds, List.cons_append] at hread ⊢
  rw [scalar?_of_isDigit hd, integer?_of_isDigit hd, hread]
  simp [hrange]

-- ---------------------------------------------------------------------------
-- Strings
-- ---------------------------------------------------------------------------

theorem isPlain_iff : isPlain c ↔ isPrintable c ∧ c ≠ '"' ∧ c ≠ '\\' := by
  simp [isPlain, and_assoc]

theorem basicBody_append (h : ∀ c ∈ cs, isPlain c) :
    basicBody (cs ++ '"' :: rest) = some (cs, rest) := by
  induction cs with
  | nil => rfl
  | cons c cs ih =>
    obtain ⟨hc, hcs⟩ := List.forall_mem_cons.mp h
    obtain ⟨hprintable, hquote, hescape⟩ := isPlain_iff.mp hc
    rw [List.cons_append, basicBody]
    · simp [hprintable, ih hcs, prepend]
    · exact hquote
    · exact fun _ _ heq => absurd heq hescape

theorem unescape_cons (h : c ≠ '\\') :
    unescape false (c :: rest) = (c :: ·) <$> unescape false rest := by
  rw [unescape]
  · rfl
  all_goals simp [h]

theorem unescape_of_plain (h : ∀ c ∈ cs, isPlain c) : unescape false cs = some cs := by
  induction cs with
  | nil => rfl
  | cons c cs ih =>
    obtain ⟨hc, hcs⟩ := List.forall_mem_cons.mp h
    rw [unescape_cons (isPlain_iff.mp hc).2.2, ih hcs]
    rfl

theorem scalar?_quoted (h : ∀ c ∈ cs, isPlain c) :
    scalar? ('"' :: (cs ++ '"' :: '\n' :: rest)) = some (.string (String.ofList cs), '\n' :: rest) := by
  have hquoted : quoted? ('"' :: (cs ++ '"' :: '\n' :: rest)) =
      some (String.ofList cs, '\n' :: rest) := by
    simp [quoted?, basicBody_append h, unescape_of_plain h]
  have hstring : string? ('"' :: (cs ++ '"' :: '\n' :: rest)) =
      some (String.ofList cs, '\n' :: rest) := by
    -- Three quotes in a row would begin a string over several lines.
    cases cs with
    | nil => exact hquoted
    | cons c cs =>
      have hc : isPlain c := h c List.mem_cons_self
      rw [string?]
      · exact hquoted
      · exact fun _ heq => cons_ne_cons hc (by decide) (List.cons.inj heq).2
      · simp
  simp [scalar?, hstring]

-- ---------------------------------------------------------------------------
-- Lines
-- ---------------------------------------------------------------------------

/-- The text is the value in decimal digits, as a word, or between double quotes. -/
inductive Written : Value → List Char → Prop
  | integer {n : Nat} (inRange : n < 9223372036854775808) :
      Written (.integer n) (Nat.toDigits 10 n)
  | boolean (b : Bool) : Written (.boolean b) (toString b).toList
  | string {cs : List Char} (plain : ∀ c ∈ cs, isPlain c) :
      Written (.string (String.ofList cs)) ('"' :: (cs ++ ['"']))

/-- A line of a document with a bare key and a plain value. -/
structure Line where
  key : List Char
  value : Value
  text : List Char
  named : key ≠ []
  bare : ∀ c ∈ key, isBareKeyChar c
  written : Written value text

namespace Line

def chars (l : Line) : List Char := l.key ++ ' ' :: '=' :: ' ' :: (l.text ++ ['\n'])

def entry (l : Line) : String × Value := (String.ofList l.key, l.value)

def statement (l : Line) : Statement := .entry [String.ofList l.key] l.value

def document (lines : List Line) : String := String.ofList (lines.flatMap chars)

end Line

theorem Written.scalar?_eq {v : Value} {text : List Char} (h : Written v text) (rest : List Char) :
    scalar? (text ++ '\n' :: rest) = some (v, '\n' :: rest) := by
  cases h with
  | integer inRange => exact scalar?_toDigits inRange
  | boolean b => cases b <;> rfl
  | string plain => simpa using scalar?_quoted plain

def opensScalar (c : Char) : Bool := c.isAlphanum || c == '"'

theorem Written.exists_cons {v : Value} {text : List Char} (h : Written v text) :
    ∃ c cs, text = c :: cs ∧ opensScalar c := by
  cases h with
  | @integer n _ =>
    obtain ⟨d, ds, hds, hd, -⟩ := exists_toDigits n
    exact ⟨d, ds, hds, by simp [opensScalar, Char.isAlphanum, hd]⟩
  | boolean b => cases b <;> exact ⟨_, _, rfl, rfl⟩
  | string => exact ⟨_, _, rfl, rfl⟩

theorem Written.value?_eq {v : Value} {text : List Char} (h : Written v text) (depth : Nat)
    (rest : List Char) :
    value? depth ((text ++ '\n' :: rest).dropWhile isSpace) = some (v, '\n' :: rest) := by
  have hscalar := h.scalar?_eq rest
  obtain ⟨c, cs, rfl, hc⟩ := h.exists_cons
  rw [List.cons_append] at hscalar ⊢
  rw [dropWhile_isSpace hc (by decide) (by decide), value?, hscalar]
  -- It begins neither an array nor a table.
  · exact fun _ _ _ => cons_ne_cons hc (by decide)
  · exact fun _ _ _ => cons_ne_cons hc (by decide)

theorem lineEnd?_of_isBareKeyChar (h : isBareKeyChar c) : lineEnd? (c :: rest) = none := by
  have hcomment : skipComment (c :: rest) = c :: rest := by
    rw [skipComment]
    exact fun _ => cons_ne_cons h (by decide)
  rw [lineEnd?, dropWhile_isSpace h (by decide) (by decide), hcomment]
  show newline? (c :: rest) = none
  rw [newline?]
  · exact fun _ => cons_ne_cons h (by decide)
  · exact fun _ => cons_ne_cons h (by decide)

theorem bareKey?_append (rest : List Char) (hne : cs ≠ []) (h : ∀ c ∈ cs, isBareKeyChar c) :
    bareKey? (cs ++ ' ' :: rest) = some (String.ofList cs, ' ' :: rest) := by
  have hspan : (cs ++ ' ' :: rest).span isBareKeyChar = (cs, ' ' :: rest) := by
    have hspace : isBareKeyChar ' ' = false := by decide
    rw [List.span_eq_takeWhile_dropWhile, List.takeWhile_append_of_pos h,
      List.dropWhile_append_of_pos h]
    simp [hspace]
  cases cs with
  | nil => exact absurd rfl hne
  | cons c cs => rw [bareKey?, hspan]

theorem path?_append (rest : List Char) (hne : cs ≠ []) (h : ∀ c ∈ cs, isBareKeyChar c) :
    path? (cs ++ ' ' :: '=' :: rest) = some ([String.ofList cs], '=' :: rest) := by
  have hkey := bareKey?_append ('=' :: rest) hne h
  cases cs with
  | nil => exact absurd rfl hne
  | cons c cs =>
    have hc := h c List.mem_cons_self
    rw [List.cons_append] at hkey ⊢
    rw [path?, dropWhile_isSpace hc (by decide) (by decide)]
    simp only [quoted?_of_class hc (by decide) (by decide), hkey]
    rfl

namespace Line

theorem chars_append (l : Line) (rest : List Char) :
    l.chars ++ rest = l.key ++ ' ' :: '=' :: ' ' :: (l.text ++ '\n' :: rest) := by
  simp [chars]

theorem pair?_eq (l : Line) (depth : Nat) (rest : List Char) :
    pair? (value? depth) (l.chars ++ rest) =
      some (([String.ofList l.key], l.value), '\n' :: rest) := by
  rw [chars_append, pair?, path?_append _ l.named l.bare]
  show (value? depth ((' ' :: (l.text ++ '\n' :: rest)).dropWhile isSpace)).bind _ = _
  rw [List.dropWhile_cons_of_pos (by decide), l.written.value?_eq]
  rfl

theorem exists_cons (l : Line) (rest : List Char) :
    ∃ c cs, l.chars ++ rest = c :: cs ∧ isBareKeyChar c ∧ rest.length ≤ cs.length := by
  obtain ⟨c, cs, hkey⟩ := List.exists_cons_of_ne_nil l.named
  refine ⟨c, _, by rw [chars_append, hkey, List.cons_append], l.bare c (by simp [hkey]), ?_⟩
  simp only [List.length_append, List.length_cons]
  omega

theorem statement?_eq (l : Line) (rest : List Char) :
    statement? (l.chars ++ rest) = some (some l.statement, rest) := by
  have hpair := l.pair?_eq nestingLimit rest
  obtain ⟨c, cs, hchars, hc, -⟩ := l.exists_cons rest
  rw [hchars] at hpair ⊢
  rw [statement?, lineEnd?_of_isBareKeyChar hc, dropWhile_isSpace hc (by decide) (by decide)]
  dsimp only
  split
  next hheader => exact absurd hheader (cons_ne_cons hc (by decide))
  next =>
    rw [hpair]
    rfl

theorem statementsFrom_eq (l : Line) (rest : List Char) :
    statementsFrom (l.chars ++ rest) = (statementsFrom rest).map (l.statement :: ·) := by
  have hstatement := l.statement?_eq rest
  obtain ⟨c, cs, hchars, -, hshorter⟩ := l.exists_cons rest
  rw [hchars] at hstatement ⊢
  rw [statementsFrom, hstatement]
  show (if rest.length ≤ cs.length then _ else _) = _
  rw [if_pos hshorter]
  cases statementsFrom rest <;> rfl

end Line

theorem statementsFrom_lines (lines : List Line) :
    statementsFrom (lines.flatMap Line.chars) = some (lines.map Line.statement) := by
  induction lines with
  | nil => rw [List.flatMap_nil, statementsFrom, List.map_nil]
  | cons l lines ih => rw [List.flatMap_cons, l.statementsFrom_eq, ih, List.map_cons, Option.map_some]

theorem statements?_lines (lines : List Line) :
    statements? (Line.document lines) = some (lines.map Line.statement) := by
  rw [statements?, Line.document, String.toList_ofList, ← statementsFrom_lines]
  split
  next hmark =>
    -- A key does not begin with a byte order mark.
    cases lines with
    | nil => simp at hmark
    | cons l lines =>
      obtain ⟨c, cs, hchars, hc, -⟩ := l.exists_cons (lines.flatMap Line.chars)
      rw [List.flatMap_cons, hchars] at hmark
      exact absurd hmark (cons_ne_cons hc (by decide))
  next => rfl

-- ---------------------------------------------------------------------------
-- Entries
-- ---------------------------------------------------------------------------

theorem Table.update?_of_not_mem {t : Table} {key : String} {f : Option Value → Option Value}
    (h : key ∉ t.map (·.1)) : t.update? key f = (f none).map fun v => t ++ [(key, v)] := by
  induction t with
  | nil =>
    rw [Table.update?]
    cases f none <;> rfl
  | cons e t ih =>
    obtain ⟨k, v⟩ := e
    simp only [List.map_cons, List.mem_cons, not_or] at h
    rw [Table.update?, if_neg (Ne.symm h.1), ih h.2]
    cases f none <;> rfl

namespace Document

theorem add?_line (l : Line) {root : Table} (h : l.entry.1 ∉ root.map (·.1)) :
    add? ⟨root, []⟩ l.statement = some ⟨root ++ [l.entry], []⟩ := by
  have hinsert : root.insert? [String.ofList l.key] l.value = some (root ++ [l.entry]) :=
    Table.update?_of_not_mem h
  show ((root.insert? [String.ofList l.key] l.value).bind _) = _
  rw [hinsert]
  rfl

theorem foldlM_lines (lines : List Line) (root : Table)
    (distinct : ((root ++ lines.map Line.entry).map (·.1)).Nodup) :
    (lines.map Line.statement).foldlM add? ⟨root, []⟩ =
      some ⟨root ++ lines.map Line.entry, []⟩ := by
  induction lines generalizing root with
  | nil => simp
  | cons l lines ih =>
    have hnew : l.entry.1 ∉ root.map (·.1) := by
      rw [List.map_append, List.nodup_append] at distinct
      exact fun hm => distinct.2.2 _ hm _ (by simp) rfl
    have hrest := ih (root ++ [l.entry]) (by simpa using distinct)
    rw [List.map_cons, List.foldlM_cons, add?_line l hnew]
    simpa using hrest

theorem ofText?_lines (lines : List Line) (distinct : (lines.map (·.entry.1)).Nodup) :
    ofText? (Line.document lines) = some ⟨lines.map Line.entry, []⟩ := by
  have hentries := foldlM_lines lines [] (by rw [List.nil_append, List.map_map]; exact distinct)
  rw [ofText?, statements?_lines]
  exact hentries

end Document

-- ---------------------------------------------------------------------------
-- Writing
-- ---------------------------------------------------------------------------

theorem Written.text?_eq {v : Value} {text : List Char} (h : Written v text) :
    v.text? = some (String.ofList text) := by
  cases h with
  | @integer n inRange =>
    have hrange : isInRange n := by simp [isInRange]; omega
    have hrepr : toString (n : Int) = n.repr := rfl
    rw [Value.text?, if_pos hrange, hrepr, Option.some.injEq, ← String.toList_inj]
    simp
  | boolean b => cases b <;> rfl
  | @string cs plain =>
    rw [Value.text?, String.toList_ofList, if_pos (List.all_eq_true.mpr plain), Option.some.injEq,
      ← String.toList_inj]
    simp

theorem Line.lineText?_eq (l : Line) : Table.lineText? l.entry = some (String.ofList l.chars) := by
  have hkey : (!(String.ofList l.key).isEmpty && l.key.all isBareKeyChar) = true := by
    simp [l.named, List.all_eq_true.mpr l.bare]
  simp only [entry, Table.lineText?, String.toList_ofList, hkey, l.written.text?_eq]
  simp [← String.toList_inj, chars]

theorem Table.text?_lines (lines : List Line) :
    Table.text? (lines.map Line.entry) = some (Line.document lines) := by
  have htexts : (lines.map Line.entry).mapM Table.lineText? =
      some (lines.map fun l => String.ofList l.chars) := by
    induction lines with
    | nil => rfl
    | cons l lines ih => simp [l.lineText?_eq, ih]
  rw [Table.text?, htexts, Line.document]
  simp [← String.toList_inj, List.flatMap_def, Function.comp_def]

end ModalTableau.Toml
