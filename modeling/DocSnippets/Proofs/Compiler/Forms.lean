import DocSnippets.Compiler.Report
import DocSnippets.Proofs.Text.Digits
import DocSnippets.Proofs.Text.Occurrences

/-!
# Forms of compiler messages

A message is written as a severity, a code and a text, a place as two numbers in parentheses with a
message behind them. What a report is read as depends on these forms alone.
-/

namespace DocSnippets.Report

/-- A nonempty run of digits. -/
structure IsNumber (digits : List Char) : Prop where
  ne_nil : digits ≠ []
  isDigit : ∀ c ∈ digits, Text.isDigit c = true

inductive Severity where
  | error
  | warning
deriving DecidableEq

def Severity.word : Severity → String
  | error => "error"
  | warning => "warning"

/-- A message as it is written. -/
def messageText (s : Severity) (code text : List Char) : List Char :=
  s.word.toList ++ (" TS".toList ++ (code ++ (": ".toList ++ text)))

/-- A place as it is written, with the message about it. -/
def placeText (line column message : List Char) : List Char :=
  ['('] ++ (line ++ ([','] ++ (column ++ ("): ".toList ++ message))))

def IsMessage (text : List Char) : Prop :=
  ∃ s code rest, IsNumber code ∧ text = messageText s code rest

def IsPlace (text : List Char) : Prop :=
  ∃ line column message, IsNumber line ∧ IsNumber column ∧ IsMessage message ∧
    text = placeText line column message

/-- Somewhere in a text there is a place with a message behind it. -/
def HasPlace (text : List Char) : Prop := ∃ front back, text = front ++ back ∧ IsPlace back

/-- A text that reads as a file and a place in it. -/
def IsLocated (text : List Char) : Prop :=
  ∃ file back, file ≠ [] ∧ text = file ++ back ∧ IsPlace back

theorem IsLocated.hasPlace {text : List Char} (h : IsLocated text) : HasPlace text := by
  obtain ⟨file, back, -, htext, hback⟩ := h
  exact ⟨file, back, htext, hback⟩

theorem IsMessage.append {text : List Char} (h : IsMessage text) (tail : List Char) :
    IsMessage (text ++ tail) := by
  obtain ⟨s, code, rest, hcode, rfl⟩ := h
  exact ⟨s, code, rest ++ tail, hcode, by simp only [messageText, List.append_assoc]⟩

theorem IsPlace.append {text : List Char} (h : IsPlace text) (tail : List Char) :
    IsPlace (text ++ tail) := by
  obtain ⟨line, column, message, hline, hcolumn, hmessage, rfl⟩ := h
  exact ⟨line, column, message ++ tail, hline, hcolumn, hmessage.append tail,
    by simp only [placeText, List.append_assoc]⟩

theorem isNumber_toDigits (n : Nat) : IsNumber (Nat.toDigits 10 n) :=
  ⟨Nat.toDigits_ne_nil, fun _ => Text.isDigit_of_mem_toDigits⟩

theorem IsNumber.paren_notMem {digits : List Char} (h : IsNumber digits) : '(' ∉ digits := by
  intro hmem
  exact absurd (h.isDigit _ hmem) (by decide)

/-! What is written in one of the forms is read as such. -/

theorem digits?_append {digits rest : List Char} (h : IsNumber digits)
    (hrest : ∀ c ∈ rest.head?, Text.isDigit c = false) :
    digits? (digits ++ rest) = some (digits, rest) := by
  rw [digits?, List.takeWhile_append_of_pos h.isDigit, List.dropWhile_append_of_pos h.isDigit]
  cases rest with
  | nil => rw [List.takeWhile_nil, List.dropWhile_nil, List.append_nil, if_neg h.ne_nil]
  | cons c rest =>
    have hc : ¬ Text.isDigit c = true := by simp [hrest c rfl]
    rw [List.takeWhile_cons_of_neg hc, List.dropWhile_cons_of_neg hc, List.append_nil,
      if_neg h.ne_nil]

section Written

variable {line column code : List Char}

theorem severity_word (s : Severity) (rest : List Char) :
    ("error".toList.isPrefixOf? (s.word.toList ++ rest)).or
      ("warning".toList.isPrefixOf? (s.word.toList ++ rest)) = some rest := by
  cases s with
  | error => rw [Severity.word, Text.isPrefixOf?_append "error".toList rest, Option.some_or]
  | warning =>
    have herror : "error".toList.isPrefixOf? ("warning".toList ++ rest) = none := rfl
    rw [Severity.word, herror, Option.none_or, Text.isPrefixOf?_append "warning".toList rest]

theorem message?_messageText (s : Severity) (hcode : IsNumber code) (rest : List Char) :
    message? (messageText s code rest) = some { code, text := messageText s code rest } := by
  have hend : ∀ c ∈ (": ".toList ++ rest).head?, Text.isDigit c = false := by
    rintro c ⟨⟩
    decide
  rw [message?, messageText, severity_word]
  simp only [Text.isPrefixOf?_append, Option.bind_eq_bind, Option.bind_some,
    digits?_append hcode hend]

theorem place?_placeText (file : List Char) (hline : IsNumber line) (hcolumn : IsNumber column)
    {text : List Char} {message : Message} (hmessage : message? text = some message) :
    place? file (placeText line column text) = some { file, line, column, message } := by
  have hcomma (tail : List Char) : ∀ d ∈ ([','] ++ tail).head?, Text.isDigit d = false := by
    rintro d ⟨⟩
    decide
  have hclose : ∀ d ∈ ("): ".toList ++ text).head?, Text.isDigit d = false := by
    rintro d ⟨⟩
    decide
  rw [place?, placeText]
  simp only [Text.isPrefixOf?_append, Option.bind_eq_bind, Option.bind_some,
    digits?_append hline (hcomma _), digits?_append hcolumn hclose, hmessage]

end Written

/-! What is read is written in one of the forms. -/

theorem isNumber_of_digits? {text digits rest : List Char}
    (h : digits? text = some (digits, rest)) : IsNumber digits ∧ text = digits ++ rest := by
  rw [digits?] at h
  split at h
  · cases h
  · next hne =>
    obtain ⟨rfl, rfl⟩ := Prod.mk.inj (Option.some.inj h)
    exact ⟨⟨hne, List.all_eq_true.mp List.all_takeWhile⟩, List.takeWhile_append_dropWhile.symm⟩

theorem isMessage_of_message? {text : List Char} {m : Message} (h : message? text = some m) :
    IsMessage text := by
  rw [message?] at h
  obtain ⟨afterSeverity, hseverity, h⟩ := Option.bind_eq_some_iff.mp h
  obtain ⟨afterMark, hmark, h⟩ := Option.bind_eq_some_iff.mp h
  obtain ⟨⟨code, afterCode⟩, hcode, h⟩ := Option.bind_eq_some_iff.mp h
  obtain ⟨afterColon, hcolon, -⟩ := Option.bind_eq_some_iff.mp h
  obtain ⟨hnumber, rfl⟩ := isNumber_of_digits? hcode
  obtain rfl := Text.eq_append_of_isPrefixOf? hmark
  obtain rfl := Text.eq_append_of_isPrefixOf? hcolon
  rcases Option.or_eq_some_iff.mp hseverity with herror | ⟨-, hwarning⟩
  · exact ⟨.error, code, afterColon, hnumber, Text.eq_append_of_isPrefixOf? herror⟩
  · exact ⟨.warning, code, afterColon, hnumber, Text.eq_append_of_isPrefixOf? hwarning⟩

theorem isPlace_of_place? {file text : List Char} {l : Located} (h : place? file text = some l) :
    IsPlace text := by
  rw [place?] at h
  obtain ⟨afterOpen, hopen, h⟩ := Option.bind_eq_some_iff.mp h
  obtain ⟨⟨line, afterLine⟩, hline, h⟩ := Option.bind_eq_some_iff.mp h
  obtain ⟨afterComma, hcomma, h⟩ := Option.bind_eq_some_iff.mp h
  obtain ⟨⟨column, afterColumn⟩, hcolumn, h⟩ := Option.bind_eq_some_iff.mp h
  obtain ⟨afterClose, hclose, h⟩ := Option.bind_eq_some_iff.mp h
  obtain ⟨message, hmessage, -⟩ := Option.bind_eq_some_iff.mp h
  obtain ⟨hlineNumber, rfl⟩ := isNumber_of_digits? hline
  obtain ⟨hcolumnNumber, rfl⟩ := isNumber_of_digits? hcolumn
  obtain rfl := Text.eq_append_of_isPrefixOf? hopen
  obtain rfl := Text.eq_append_of_isPrefixOf? hcomma
  obtain rfl := Text.eq_append_of_isPrefixOf? hclose
  exact ⟨line, column, afterClose, hlineNumber, hcolumnNumber, isMessage_of_message? hmessage, rfl⟩

theorem place?_eq_none_iff {file text : List Char} : place? file text = none ↔ ¬ IsPlace text := by
  constructor
  · rintro hnone ⟨line, column, message, hline, hcolumn, ⟨s, code, rest, hcode, rfl⟩, rfl⟩
    rw [place?_placeText file hline hcolumn (message?_messageText s hcode rest)] at hnone
    cases hnone
  · intro h
    by_contra hsome
    obtain ⟨l, hl⟩ := Option.ne_none_iff_exists'.mp hsome
    exact h (isPlace_of_place? hl)

theorem isLocated_of_located? {text : List Char} {l : Located} (h : located? text = some l) :
    IsLocated text := by
  induction text generalizing l with
  | nil => cases h
  | cons c rest ih =>
    rw [located?] at h
    cases hplace : place? [c] rest with
    | some l' => exact ⟨[c], rest, List.cons_ne_nil c [], rfl, isPlace_of_place? hplace⟩
    | none =>
      rw [hplace] at h
      obtain ⟨l', hl', -⟩ := Option.map_eq_some_iff.mp h
      obtain ⟨file, back, -, rfl, hback⟩ := ih hl'
      exact ⟨c :: file, back, List.cons_ne_nil c file, rfl, hback⟩

theorem message?_eq_none_iff {text : List Char} : message? text = none ↔ ¬ IsMessage text := by
  constructor
  · rintro hnone ⟨s, code, rest, hcode, rfl⟩
    rw [message?_messageText s hcode] at hnone
    cases hnone
  · intro h
    by_contra hsome
    obtain ⟨m, hm⟩ := Option.ne_none_iff_exists'.mp hsome
    exact h (isMessage_of_message? hm)

theorem located?_eq_none {text : List Char} (h : ¬ IsLocated text) : located? text = none := by
  by_contra hsome
  obtain ⟨l, hl⟩ := Option.ne_none_iff_exists'.mp hsome
  exact h (isLocated_of_located? hl)

/-! A place starts with a parenthesis, a message with a letter. -/

theorem word_no_paren (s : Severity) : '(' ∉ s.word.toList := by cases s <;> decide

/-- What makes a text a place stands at its start and has no further parenthesis. -/
theorem IsPlace.exists_head {text : List Char} (h : IsPlace text) :
    ∃ head tail, text = '(' :: (head ++ tail) ∧ '(' ∉ head ∧
      ∀ tail', IsPlace ('(' :: (head ++ tail')) := by
  obtain ⟨line, column, message, hline, hcolumn, ⟨s, code, rest, hcode, rfl⟩, rfl⟩ := h
  refine ⟨line ++ ([','] ++ (column ++ ("): ".toList ++
    (s.word.toList ++ (" TS".toList ++ (code ++ ": ".toList)))))), rest, ?_, ?_, fun tail' => ?_⟩
  · simp only [placeText, messageText, List.append_assoc, List.cons_append, List.nil_append]
  · simp only [List.mem_append, not_or]
    exact ⟨hline.paren_notMem, by decide, hcolumn.paren_notMem, by decide, word_no_paren s,
      by decide, hcode.paren_notMem, by decide⟩
  · refine ⟨line, column, messageText s code tail', hline, hcolumn,
      ⟨s, code, tail', hcode, rfl⟩, ?_⟩
    simp only [placeText, messageText, List.append_assoc, List.cons_append, List.nil_append]

theorem IsPlace.eq_cons {text : List Char} (h : IsPlace text) : ∃ rest, text = '(' :: rest := by
  obtain ⟨head, tail, htext, -⟩ := h.exists_head
  exact ⟨head ++ tail, htext⟩

/-- A place does not reach as far as a second parenthesis. -/
theorem IsPlace.of_append_paren {text rest : List Char} (hne : text ≠ [])
    (h : IsPlace (text ++ '(' :: rest)) : IsPlace text := by
  obtain ⟨head, tail, htext, hhead, hplace⟩ := h.exists_head
  obtain ⟨c, text, rfl⟩ := List.exists_cons_of_ne_nil hne
  obtain ⟨rfl, hrest⟩ := List.cons.inj htext
  rcases List.append_eq_append_iff.mp hrest with ⟨mid, rfl, hmid⟩ | ⟨mid, rfl, -⟩
  · cases mid with
    | nil =>
      have hthis := hplace []
      rwa [List.append_nil, List.append_nil] at hthis
    | cons d mid =>
      obtain ⟨rfl, -⟩ := List.cons.inj hmid
      exact absurd (List.mem_append_right text List.mem_cons_self) hhead
  · exact hplace mid

theorem IsMessage.not_blank {text : List Char} (h : IsMessage text) :
    ∀ c ∈ text.head?, Text.isBlank c = false := by
  obtain ⟨s, code, rest, -, rfl⟩ := h
  cases s with
  | error =>
    rintro c ⟨⟩
    decide
  | warning =>
    rintro c ⟨⟩
    decide

theorem HasPlace.paren_mem {text : List Char} (h : HasPlace text) : '(' ∈ text := by
  obtain ⟨front, back, rfl, hback⟩ := h
  obtain ⟨rest, rfl⟩ := hback.eq_cons
  exact List.mem_append_right front List.mem_cons_self

/-- A place behind a text without parentheses lies in what follows this text. -/
theorem HasPlace.of_append {front text : List Char} (hfront : '(' ∉ front)
    (h : HasPlace (front ++ text)) : HasPlace text := by
  obtain ⟨before, back, htext, hback⟩ := h
  rcases List.append_eq_append_iff.mp htext with ⟨mid, rfl, rfl⟩ | ⟨mid, rfl, rfl⟩
  · exact ⟨mid, back, rfl, hback⟩
  · cases mid with
    | nil => exact ⟨[], text, rfl, hback⟩
    | cons c mid =>
      obtain ⟨rest, hrest⟩ := hback.eq_cons
      obtain rfl := (List.cons.inj hrest).1
      exact absurd (List.mem_append_right before List.mem_cons_self) hfront

theorem not_isLocated_messageText {s : Severity} {code text : List Char} (hcode : IsNumber code)
    (h : ¬ HasPlace text) : ¬ IsLocated (messageText s code text) := by
  intro hlocated
  have hplain : '(' ∉ s.word.toList ++ (" TS".toList ++ (code ++ ": ".toList)) := by
    simp only [List.mem_append, not_or]
    exact ⟨word_no_paren s, by decide, hcode.paren_notMem, by decide⟩
  have htext : messageText s code text =
      (s.word.toList ++ (" TS".toList ++ (code ++ ": ".toList))) ++ text := by
    simp only [messageText, List.append_assoc]
  rw [htext] at hlocated
  exact h (hlocated.hasPlace.of_append hplain)

end DocSnippets.Report
