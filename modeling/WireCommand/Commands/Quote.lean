import WireCommand.Basic
import WireCommand.Foundation.Shell

/-!
# Shell quoting

`LS` and `CAT` hand the client's argument to a shell. `wc_command_quote_argument` writes it between
single quotes, and `wc_command_build` puts it between the program and a redirection.

C strings are byte lists with the bytes up to the first NUL counting. Where the C library has a
choice, a `Libc` makes it. Its `malloc` may refuse any request and never grants one above
`PTRDIFF_MAX`: no object is larger than that. The bound is what keeps the sum of the lengths in
`wc_command_build` below `2 ^ 64`, since the quoted argument is already in memory there.

Its `snprintf` fails above `INT_MAX`, because it could not return the length. `wc_command_build` does
not look at the result, and the buffer it hands on then holds whatever the library left in it. The
line and its NUL have to be within `INT_MAX` bytes (`lineSize`), and then the line is whole.

The main fact is `run_quoted`: the shell's lexer reads what the quoting loop wrote as one word, the
argument. The induction follows the loop, with the lexer inside single quotes between two bytes of
the argument.
-/

namespace WireCommand.Commands

open Foundation.Shell

/-! ## The C library -/

/-- `PTRDIFF_MAX`. -/
def ptrdiffMax : Nat := 2 ^ 63 - 1

/-- `INT_MAX`. -/
def intMax : Nat := 2 ^ 31 - 1

/-- The C library where it has a choice. -/
structure Libc where
  /-- `malloc`: whether the request of this number and size is granted. -/
  grants : Nat → Nat → Bool
  le_of_grants : ∀ {call size}, grants call size = true → size ≤ ptrdiffMax
  /-- What is in a buffer of this size behind a call of `snprintf` that failed. -/
  unformatted : Nat → Bytes

/-- The C string at the front of some bytes: everything before the first NUL. -/
def cString (bytes : Bytes) : Bytes := bytes.takeWhile (· ≠ 0)

/-- `strlen`. -/
def strlen (bytes : Bytes) : Nat := (cString bytes).length

/-- `snprintf` of a text into a buffer of `size` bytes: what it returns, and what is in the buffer
then. It fails when the size or the length it has to return is above `INT_MAX`, and then nothing is
specified about the buffer; otherwise the buffer holds the text as far as it fits, and a NUL. -/
def snprintf (libc : Libc) (size : Nat) (text : Bytes) : Except Errno Nat × Bytes :=
  if intMax < size ∨ intMax < text.length then
    (.error .eoverflow, libc.unformatted size)
  else
    (.ok text.length, if size = 0 then [] else text.take (size - 1) ++ [0])

/-! ## The quoter -/

/-- The loop of `wc_command_quote_argument`, with what has been written so far. -/
def quoteLoop : Bytes → Bytes → Bytes
  | quoted, [] => quoted
  | quoted, b :: rest =>
      if b = quoteByte then
        quoteLoop (quoted ++ [quoteByte, escapeByte, quoteByte, quoteByte]) rest
      else
        quoteLoop (quoted ++ [b]) rest

/-- What `wc_command_quote_argument` allocates. -/
def quoteSize (argument : Bytes) : Nat := sizeAdd (sizeMul argument.length 4) 3

/-- `wc_command_quote_argument`: every byte it writes, the terminating NUL included. -/
def quoteArgument (libc : Libc) (argument : Bytes) : Except Errno Bytes :=
  if argument.length = 0 ∨ 0 ∈ argument then
    .error .einval
  else if argument.length > (sizeMax - 3) / 4 then
    .error .eoverflow
  else if libc.grants 0 (quoteSize argument) then
    .ok (quoteLoop [quoteByte] argument ++ [quoteByte] ++ [0])
  else
    .error .enomem

/-- The suffix of `wc_command_build`: ` 2>/dev/null`. -/
def suffix : Bytes :=
  [' ', '2', '>', '/', 'd', 'e', 'v', '/', 'n', 'u', 'l', 'l'].map Char.toUInt8

/-- What `wc_command_build` allocates; the last summand is `sizeof(suffix)`. -/
def commandSize (program quoted : Bytes) : Nat :=
  sizeAdd (sizeAdd (sizeAdd (strlen program) 1) (strlen quoted)) (suffix.length + 1)

/-- The text `wc_command_build` formats: `"%s %s%s"`. -/
def commandText (program quoted : Bytes) : Bytes :=
  cString program ++ ' '.toUInt8 :: (cString quoted ++ cString suffix)

/-- `wc_command_build`: the buffer that is handed on as the command line. What `snprintf` returned is
ignored. -/
def commandBuild (libc : Libc) (program argument : Bytes) : Except Errno Bytes :=
  match quoteArgument libc argument with
  | .error e => .error e
  | .ok quoted =>
      if libc.grants 1 (commandSize program quoted) then
        .ok (snprintf libc (commandSize program quoted) (commandText program quoted)).2
      else
        .error .enomem

/-- The programs the command layer runs on an argument. -/
inductive Program where
  | ls
  | cat
  deriving DecidableEq, Repr

/-- `"ls -1 --"` and `"cat --"`. -/
def Program.text : Program → Bytes
  | .ls => ['l', 's', ' ', '-', '1', ' ', '-', '-'].map Char.toUInt8
  | .cat => ['c', 'a', 't', ' ', '-', '-'].map Char.toUInt8

/-- The words of a program. -/
def Program.words : Program → List Bytes
  | .ls => [['l', 's'], ['-', '1'], ['-', '-']].map (·.map Char.toUInt8)
  | .cat => [['c', 'a', 't'], ['-', '-']].map (·.map Char.toUInt8)

/-! ## What the loop writes -/

/-- What the loop writes for one byte. -/
def escape (b : UInt8) : Bytes :=
  if b = quoteByte then [quoteByte, escapeByte, quoteByte, quoteByte] else [b]

theorem quoteLoop_eq (quoted argument : Bytes) :
    quoteLoop quoted argument = quoted ++ argument.flatMap escape := by
  induction argument generalizing quoted with
  | nil => simp [quoteLoop]
  | cons b rest ih =>
      by_cases hb : b = quoteByte
      · simp [quoteLoop, hb, ih, escape]
      · simp [quoteLoop, hb, ih, escape]

/-- The quoted argument, without the terminating NUL. -/
def quoted (argument : Bytes) : Bytes := quoteByte :: argument.flatMap escape ++ [quoteByte]

/-- A quote is written as four bytes, anything else as one. -/
theorem flatMap_escape_length (argument : Bytes) :
    (argument.flatMap escape).length = argument.length + 3 * argument.count quoteByte := by
  induction argument with
  | nil => rfl
  | cons b rest ih =>
      rw [List.flatMap_cons, List.length_append, ih, List.length_cons]
      by_cases hb : b = quoteByte
      · rw [hb, List.count_cons_self]
        show 4 + _ = _
        omega
      · rw [List.count_cons_of_ne hb, escape, if_neg hb, List.length_singleton]
        omega

theorem quoted_length (argument : Bytes) :
    (quoted argument).length = argument.length + 3 * argument.count quoteByte + 2 := by
  have := flatMap_escape_length argument
  simp only [quoted, List.length_append, List.length_cons, List.length_nil]
  omega

/-- The quoter writes at most its allocation. -/
theorem quoted_length_le (argument : Bytes) :
    (quoted argument ++ [0]).length ≤ argument.length * 4 + 3 := by
  have hquotes : argument.count quoteByte ≤ argument.length := List.count_le_length
  rw [List.length_append, quoted_length, List.length_singleton]
  omega

/-- The size of the allocation is computed without wrapping around. -/
theorem quoteSize_eq {argument : Bytes} (h : argument.length ≤ (sizeMax - 3) / 4) :
    quoteSize argument = argument.length * 4 + 3 := by
  unfold sizeMax at h
  unfold quoteSize
  rw [sizeMul_eq (by unfold sizeMax; omega), sizeAdd_eq (by unfold sizeMax; omega)]

theorem cString_append_nul {bytes : Bytes} (h : 0 ∉ bytes) (rest : Bytes) :
    cString (bytes ++ 0 :: rest) = bytes := by
  have hall : ∀ b ∈ bytes, decide (b ≠ 0) = true := by
    intro b hb
    have hne : b ≠ 0 := by
      rintro rfl
      exact h hb
    simpa using hne
  rw [cString, List.takeWhile_append_of_pos hall]
  simp

/-- Quoting brings no NUL in. -/
theorem nul_notMem_quoted {argument : Bytes} (h : 0 ∉ argument) : 0 ∉ quoted argument := by
  have hescape : ∀ b ∈ argument, 0 ∉ escape b := by
    intro b hb
    have hne : b ≠ 0 := fun h0 => h (h0 ▸ hb)
    unfold escape
    split
    · decide
    · simpa using hne.symm
  simp only [quoted, List.cons_append, List.mem_cons, List.mem_append, List.mem_flatMap,
    List.not_mem_nil, or_false, not_or, not_exists, not_and]
  exact ⟨by decide, hescape, by decide⟩

/-! ## What the shell reads -/

/-- **Between the quotes the lexer reads the argument.** The induction is along the loop: between
two bytes of the argument the lexer is inside single quotes. -/
theorem run_escaped (argument : Bytes) (bytes : Bytes) (tokens : List Token) :
    run ⟨.singleQuoted, some ⟨bytes, false⟩, tokens⟩ (argument.flatMap escape) =
      ⟨.singleQuoted, some ⟨bytes ++ argument, false⟩, tokens⟩ := by
  induction argument generalizing bytes with
  | nil => simp
  | cons b rest ih =>
      have hbyte : run ⟨.singleQuoted, some ⟨bytes, false⟩, tokens⟩ (escape b) =
          ⟨.singleQuoted, some ⟨bytes ++ [b], false⟩, tokens⟩ := by
        unfold escape
        split
        · next hb => rw [hb, run_escapedQuote]
        · next hb => rw [run_cons, step_singleQuoted hb, run_nil]
      rw [List.flatMap_cons, run_append, hbyte, ih, List.append_assoc, List.singleton_append]

/-- **The lexer reads the quoted argument as one word.** -/
theorem run_quoted (argument : Bytes) (tokens : List Token) :
    run ⟨.unquoted, none, tokens⟩ (quoted argument) =
      ⟨.unquoted, some ⟨argument, false⟩, tokens⟩ := by
  have hopen : step ⟨.unquoted, none, tokens⟩ quoteByte =
      ⟨.singleQuoted, some ⟨[], false⟩, tokens⟩ := rfl
  have hclose : ∀ w, step ⟨.singleQuoted, some w, tokens⟩ quoteByte =
      ⟨.unquoted, some w, tokens⟩ := fun _ => rfl
  rw [quoted, List.cons_append, run_cons, hopen, run_append, run_escaped, run_cons, hclose]
  rfl

/-- The lexer at the end of the program and the blank behind it. -/
theorem run_program (program : Program) :
    run .start (program.text ++ [' '.toUInt8]) =
      ⟨.unquoted, none, program.words.map .word⟩ := by
  cases program <;> rfl

/-- `/dev/null`. -/
def devNull : Bytes := ['/', 'd', 'e', 'v', '/', 'n', 'u', 'l', 'l'].map Char.toUInt8

/-- The tokens of the redirection. -/
def redirection : List Token := [.ioNumber ['2'.toUInt8], .operator '>'.toUInt8, .word devNull]

/-- The blank of the suffix ends the argument, and the rest is the redirection. -/
theorem run_suffix (argument : Bytes) (tokens : List Token) :
    run ⟨.unquoted, some ⟨argument, false⟩, tokens⟩ suffix =
      ⟨.unquoted, some ⟨devNull, true⟩,
        tokens ++ [.word argument, .ioNumber ['2'.toUInt8], .operator '>'.toUInt8]⟩ := by
  have hsuffix : suffix = ' '.toUInt8 :: '2'.toUInt8 :: '>'.toUInt8 :: '/'.toUInt8 :: devNull.tail :=
    rfl
  have hall : (devNull.tail.all fun b => decide (role b = .ordinary)) = true := by decide
  have hordinary : ∀ b ∈ devNull.tail, role b = .ordinary := by
    intro b hb
    exact of_decide_eq_true (List.all_eq_true.mp hall b hb)
  rw [hsuffix, run_cons, step_blank (by decide), run_cons, step_ordinary (by decide), run_cons,
    step_redirect (by decide), run_cons, step_ordinary (by decide), run_ordinary hordinary]
  simp [devNull]

/-! ## The command line -/

/-- What the quoter returns, when it returns something. -/
theorem quoteArgument_ok {libc : Libc} {argument written : Bytes}
    (h : quoteArgument libc argument = .ok written) :
    0 ∉ argument ∧ argument.length ≤ (sizeMax - 3) / 4 ∧
      libc.grants 0 (quoteSize argument) = true ∧ written = quoted argument ++ [0] := by
  unfold quoteArgument at h
  split at h
  · cases h
  · next hvalid =>
      split at h
      · cases h
      · next hsize =>
          split at h
          · next hgrant =>
              cases h
              refine ⟨fun h0 => hvalid (.inr h0), by omega, hgrant, ?_⟩
              rw [quoteLoop_eq, quoted]
              simp
          · cases h

/-- Why the quoter fails on an argument a path can be. -/
theorem quoteArgument_error {libc : Libc} {argument : Bytes} {e : Errno}
    (hne : argument ≠ []) (hnul : 0 ∉ argument) (h : quoteArgument libc argument = .error e) :
    (e = .eoverflow ∧ (sizeMax - 3) / 4 < argument.length) ∨
      (e = .enomem ∧ libc.grants 0 (quoteSize argument) = false) := by
  have hlen : argument.length ≠ 0 := by simpa using hne
  unfold quoteArgument at h
  rw [if_neg (by rintro (h0 | h0); exacts [hlen h0, hnul h0])] at h
  split at h
  · next hsize => cases h; exact .inl ⟨rfl, hsize⟩
  · split at h
    · cases h
    · next hgrant => cases h; exact .inr ⟨rfl, by simpa using hgrant⟩

theorem cString_quoted {argument : Bytes} (h : 0 ∉ argument) :
    cString (quoted argument ++ [0]) = quoted argument :=
  cString_append_nul (nul_notMem_quoted h) []

/-- The command line for a program and an argument. -/
def line (program : Program) (argument : Bytes) : Bytes :=
  program.text ++ [' '.toUInt8] ++ (quoted argument ++ suffix)

/-- The bytes of the command line with its NUL. Sixteen of them are the blank, the quotes around the
argument, the suffix and the NUL. -/
def lineSize (program : Program) (argument : Bytes) : Nat :=
  program.text.length + argument.length + 3 * argument.count quoteByte + 16

theorem line_length (program : Program) (argument : Bytes) :
    (line program argument).length + 1 = lineSize program argument := by
  have hsuffix : suffix.length = 12 := rfl
  simp only [line, List.length_append, List.length_singleton, quoted_length, hsuffix, lineSize]
  omega

/-- A length that is sent in two bytes leaves the line far below `INT_MAX`. -/
theorem lineSize_le_intMax (program : Program) {argument : Bytes}
    (h : argument.length ≤ uint16Max) : lineSize program argument ≤ intMax := by
  have hquotes : argument.count quoteByte ≤ argument.length := List.count_le_length
  have hprogram : program.text.length ≤ 8 := by cases program <;> decide
  unfold uint16Max at h
  unfold lineSize intMax
  omega

/-- The text that is formatted is the line. -/
theorem commandText_eq (program : Program) {argument : Bytes} (h : 0 ∉ argument) :
    commandText program.text (quoted argument ++ [0]) = line program argument := by
  have hprogram : cString program.text = program.text := by cases program <;> decide
  have hsuffix : cString suffix = suffix := by decide
  rw [commandText, hprogram, hsuffix, cString_quoted h, line, List.append_assoc,
    List.singleton_append]

/-- **The line fits its buffer.** The quoted argument was granted, so its length is far enough below
`SIZE_MAX` for the sum to be exact. -/
theorem commandSize_eq (libc : Libc) (program : Program) {argument written : Bytes}
    (h : quoteArgument libc argument = .ok written) :
    commandSize program.text written = lineSize program argument := by
  obtain ⟨hnul, hlen, hgrant, rfl⟩ := quoteArgument_ok h
  have hsize : argument.length * 4 + 3 ≤ ptrdiffMax := by
    have := libc.le_of_grants hgrant
    rwa [quoteSize_eq hlen] at this
  have hquoted : (quoted argument).length + 1 ≤ argument.length * 4 + 3 := by
    simpa using quoted_length_le argument
  have hprogram : strlen program.text = program.text.length ∧ program.text.length ≤ 8 := by
    cases program <;> decide
  have hsuffix : suffix.length = 12 := rfl
  have hstrlen : strlen (quoted argument ++ [0]) = (quoted argument).length := by
    rw [strlen, cString_quoted hnul]
  unfold ptrdiffMax at hsize
  have hblank : sizeAdd program.text.length 1 = program.text.length + 1 :=
    sizeAdd_eq (by unfold sizeMax; omega)
  have hargument : sizeAdd (program.text.length + 1) (quoted argument).length =
      program.text.length + 1 + (quoted argument).length :=
    sizeAdd_eq (by unfold sizeMax; omega)
  rw [commandSize, hstrlen, hprogram.1, hsuffix, hblank, hargument,
    sizeAdd_eq (by unfold sizeMax; omega), quoted_length, lineSize]
  omega

/-- Within `INT_MAX` bytes `snprintf` writes the whole line, since the buffer has room for it. -/
theorem snprintf_line (libc : Libc) {program : Program} {argument : Bytes}
    (h : lineSize program argument ≤ intMax) :
    snprintf libc (lineSize program argument) (line program argument) =
      (.ok (line program argument).length, line program argument ++ [0]) := by
  have hlength := line_length program argument
  have hnone : ¬ (intMax < lineSize program argument ∨ intMax < (line program argument).length) := by
    omega
  rw [snprintf, if_neg hnone, ← hlength, if_neg (Nat.succ_ne_zero _), Nat.add_sub_cancel,
    List.take_length]

/-- Beyond that it writes nothing that could be relied on. -/
theorem snprintf_overflow (libc : Libc) {size : Nat} (h : intMax < size) (text : Bytes) :
    snprintf libc size text = (.error .eoverflow, libc.unformatted size) := by
  unfold snprintf
  exact if_pos (.inl h)

/-- **What `wc_command_build` hands on** is what `snprintf` made of the line in a buffer of its
size. -/
theorem commandBuild_ok {libc : Libc} {program : Program} {argument command : Bytes}
    (h : commandBuild libc program.text argument = .ok command) :
    0 ∉ argument ∧
      command = (snprintf libc (lineSize program argument) (line program argument)).2 := by
  unfold commandBuild at h
  split at h
  · cases h
  · next written hquote =>
      have hsize := commandSize_eq libc program hquote
      obtain ⟨hnul, -, -, rfl⟩ := quoteArgument_ok hquote
      split at h
      · cases h
        exact ⟨hnul, by rw [hsize, commandText_eq program hnul]⟩
      · cases h

/-- The command line as the shell sees it. -/
theorem cString_command (program : Program) {argument : Bytes} (h : 0 ∉ argument) :
    cString (line program argument ++ [0]) = line program argument := by
  apply cString_append_nul
  have hprogram : 0 ∉ program.text := by cases program <;> decide
  have hsuffix : 0 ∉ suffix := by decide
  have hblank : (0 : UInt8) ≠ ' '.toUInt8 := by decide
  simp only [line, List.mem_append, List.mem_singleton, not_or]
  exact ⟨⟨hprogram, hblank⟩, nul_notMem_quoted h, hsuffix⟩

/-- The tokens of the command line. -/
theorem tokenize_command (program : Program) (argument : Bytes) :
    tokenize (line program argument) =
      some (program.words.map .word ++ [.word argument] ++ redirection) := by
  rw [tokenize, line, run_append, run_append, run_program, run_quoted, run_suffix]
  simp [State.flush, redirection]

/-- **How the shell comes to a byte of the argument.** Any prefix of the argument leaves the lexer
inside single quotes, so an ordinary byte is read there; a quote is read after a backslash. -/
theorem argument_byte_quoted (program : Program) (before after : Bytes) (b : UInt8) :
    ∃ front rest,
      line program (before ++ b :: after) = front ++ b :: rest ∧
      (run .start front).word.map Word.bytes = some before ∧
      (run .start front).mode = if b = quoteByte then .escaped else .singleQuoted := by
  have hrun : run .start (program.text ++ [' '.toUInt8] ++ quoteByte :: before.flatMap escape) =
      ⟨.singleQuoted, some ⟨before, false⟩, program.words.map .word⟩ := by
    rw [run_append, run_program, run_cons]
    exact run_escaped before [] _
  by_cases hb : b = quoteByte
  · -- the quote stands behind `'\`, which takes the lexer out of the quotes and into an escape
    refine ⟨program.text ++ [' '.toUInt8] ++ quoteByte :: before.flatMap escape ++
        [quoteByte, escapeByte],
      quoteByte :: after.flatMap escape ++ [quoteByte] ++ suffix, ?_, ?_, ?_⟩
    · simp [line, quoted, escape, hb]
    · rw [run_append, hrun]; rfl
    · rw [run_append, hrun, if_pos hb]; rfl
  · refine ⟨program.text ++ [' '.toUInt8] ++ quoteByte :: before.flatMap escape,
      after.flatMap escape ++ [quoteByte] ++ suffix, ?_, ?_, ?_⟩
    · simp [line, quoted, escape, hb]
    · rw [hrun]; rfl
    · rw [hrun, if_neg hb]

/-- The result of `wc_command_build` on a program and an argument is safe to hand to the shell. -/
structure InjectionFree (program : Program) (argument command : Bytes) : Prop where
  /-- The shell reads the program, the argument as one word, the redirection, and nothing else. -/
  tokens : tokenize (cString command) =
    some (program.words.map .word ++ [.word argument] ++ redirection)
  /-- It reads every byte of the argument inside single quotes, or escaped if it is a quote. -/
  quoted : ∀ before b after, argument = before ++ b :: after → ∃ front rest,
    cString command = front ++ b :: rest ∧
    (run .start front).word.map Word.bytes = some before ∧
    (run .start front).mode = if b = quoteByte then .escaped else .singleQuoted

theorem line_injectionFree (program : Program) {argument : Bytes} (hnul : 0 ∉ argument) :
    InjectionFree program argument (line program argument ++ [0]) := by
  have hline := cString_command program hnul
  constructor
  · rw [hline]
    exact tokenize_command program argument
  · rintro before b after rfl
    rw [hline]
    exact argument_byte_quoted program before after b

/-- With the two allocations granted a command is built. -/
theorem commandBuild_granted {libc : Libc} (program : Program) {argument : Bytes}
    (hne : argument ≠ []) (hnul : 0 ∉ argument) (hlen : argument.length ≤ (sizeMax - 3) / 4)
    (hquote : libc.grants 0 (quoteSize argument) = true)
    (hline : libc.grants 1 (lineSize program argument) = true) :
    commandBuild libc program.text argument =
      .ok (snprintf libc (lineSize program argument) (line program argument)).2 := by
  have hvalid : ¬ (argument.length = 0 ∨ 0 ∈ argument) := by
    rintro (hnone | hmem)
    · exact hne (List.length_eq_zero_iff.mp hnone)
    · exact hnul hmem
  have hquoted : quoteArgument libc argument = .ok (quoted argument ++ [0]) := by
    rw [quoteArgument, if_neg hvalid, if_neg (Nat.not_lt.mpr hlen), if_pos hquote, quoteLoop_eq]
    simp [quoted]
  unfold commandBuild
  simp only [hquoted, commandSize_eq libc program hquoted, commandText_eq program hnul, hline,
    if_true]

/-- Why nothing is built for an argument a path can be: it is too long for the quoter, or either
allocation is refused. -/
theorem commandBuild_error {libc : Libc} {program : Program} {argument : Bytes} {e : Errno}
    (hne : argument ≠ []) (hnul : 0 ∉ argument)
    (h : commandBuild libc program.text argument = .error e) :
    (e = .eoverflow ∧ (sizeMax - 3) / 4 < argument.length) ∨
      (e = .enomem ∧ (libc.grants 0 (quoteSize argument) = false ∨
        ∃ written, quoteArgument libc argument = .ok written ∧
          libc.grants 1 (commandSize program.text written) = false)) := by
  unfold commandBuild at h
  split at h
  · next e' hquote =>
      cases h
      rcases quoteArgument_error hne hnul hquote with hlong | ⟨he, hrefused⟩
      · exact .inl hlong
      · exact .inr ⟨he, .inl hrefused⟩
  · next written hquote =>
      split at h
      · cases h
      · next hrefused =>
          cases h
          exact .inr ⟨rfl, .inr ⟨written, hquote, by simpa using hrefused⟩⟩

/-- **Shell quoting is free of injection, within `INT_MAX` bytes.** On every argument a path can be,
the quoter stays in its allocation, whose size is exact, and the buffer has room for the whole line.
The command is refused for its length or by the allocator, or else it is what `snprintf` left: if
the line and its NUL take at most `INT_MAX` bytes, `snprintf` has written the whole line and the
shell reads the argument as one word; if they take more, it has failed, and what is handed on is
whatever it left in the buffer. No argument that a request can carry is that long. -/
theorem commandBuild_injectionFree (libc : Libc) (program : Program) (argument : Bytes)
    (hne : argument ≠ []) (hnul : 0 ∉ argument) :
    (∀ written, quoteArgument libc argument = .ok written →
      quoteSize argument = 4 * argument.length + 3 ∧ written.length ≤ quoteSize argument ∧
      (commandText program.text written).length < commandSize program.text written) ∧
    (argument.length ≤ uint16Max → lineSize program argument ≤ intMax) ∧
    match commandBuild libc program.text argument with
    | .ok command =>
        (lineSize program argument ≤ intMax →
          snprintf libc (lineSize program argument) (line program argument) =
            (.ok (line program argument).length, command) ∧
          command = line program argument ++ [0] ∧ InjectionFree program argument command) ∧
        (intMax < lineSize program argument →
          snprintf libc (lineSize program argument) (line program argument) =
            (.error .eoverflow, command) ∧
          command = libc.unformatted (lineSize program argument))
    | .error e =>
        (e = .eoverflow ∧ (sizeMax - 3) / 4 < argument.length) ∨
        (e = .enomem ∧ (libc.grants 0 (quoteSize argument) = false ∨
          ∃ written, quoteArgument libc argument = .ok written ∧
            libc.grants 1 (commandSize program.text written) = false)) := by
  refine ⟨?_, lineSize_le_intMax program, ?_⟩
  · intro written hquote
    have hsize := commandSize_eq libc program hquote
    obtain ⟨-, hlen, -, rfl⟩ := quoteArgument_ok hquote
    have hquoted := quoted_length_le argument
    have hline := line_length program argument
    rw [quoteSize_eq hlen, hsize, commandText_eq program hnul]
    exact ⟨by omega, hquoted, by omega⟩
  · split
    · next command hbuild =>
        obtain ⟨-, hcommand⟩ := commandBuild_ok hbuild
        constructor
        · intro hfits
          have hwhole := snprintf_line libc hfits
          rw [hwhole] at hcommand
          subst hcommand
          exact ⟨hwhole, rfl, line_injectionFree program hnul⟩
        · intro hlong
          have hfailed := snprintf_overflow libc hlong (line program argument)
          rw [hfailed] at hcommand
          subst hcommand
          exact ⟨hfailed, rfl⟩
    · next e hbuild => exact commandBuild_error hne hnul hbuild

/-- A library that grants everything up to 64 KiB. -/
def smallLibc : Libc where
  grants _ size := decide (size ≤ 65536)
  le_of_grants h := by
    have := of_decide_eq_true h
    unfold ptrdiffMax
    omega
  unformatted _ := []

/-- The argument `a';b`, which would end the quoting if its quote were not escaped. -/
theorem commandBuild_injectionFree_cat :
    ∃ command, commandBuild smallLibc Program.cat.text [97, 39, 59, 98] = .ok command ∧
      InjectionFree .cat [97, 39, 59, 98] command := by
  have h := (commandBuild_injectionFree smallLibc .cat [97, 39, 59, 98] (by decide) (by decide)).2.2
  cases hbuild : commandBuild smallLibc Program.cat.text [97, 39, 59, 98] with
  | ok command =>
      rw [hbuild] at h
      exact ⟨command, rfl, (h.1 (by decide)).2.2⟩
  | error e =>
      have : (commandBuild smallLibc Program.cat.text [97, 39, 59, 98]).isOk = true := by
        decide +kernel
      rw [hbuild] at this
      cases this

theorem cString_zeros (n : Nat) : cString (List.replicate n 0) = [] := by
  cases n with
  | zero => rfl
  | succ n => rfl

/-- A library with as much memory as there can be, all of it zero. -/
def largeLibc : Libc where
  grants _ size := decide (size ≤ ptrdiffMax)
  le_of_grants h := of_decide_eq_true h
  unformatted size := List.replicate size 0

/-- An argument of `2 ^ 31` bytes `a`. It is below every bound the quoter checks, the line is built,
and it is empty: the shell is handed no word at all. -/
theorem commandBuild_unformatted :
    ∃ argument command, argument = List.replicate (2 ^ 31) 97 ∧ argument ≠ [] ∧ 0 ∉ argument ∧
      commandBuild largeLibc Program.ls.text argument = .ok command ∧
      cString command = [] ∧ ¬ InjectionFree .ls argument command := by
  have hlength : (List.replicate (2 ^ 31) (97 : UInt8)).length = 2 ^ 31 := List.length_replicate
  have hall : ∀ b ∈ List.replicate (2 ^ 31) (97 : UInt8), b = 97 := fun b => List.eq_of_mem_replicate
  -- the list is only ever looked at through its length and its bytes
  generalize List.replicate (2 ^ 31) (97 : UInt8) = argument at hlength hall
  have hne : argument ≠ [] := by
    rintro rfl
    cases hlength
  have hnul : 0 ∉ argument := by
    intro h
    cases hall 0 h
  have hquotes : argument.count quoteByte = 0 := by
    apply List.count_eq_zero.mpr
    intro h
    cases hall quoteByte h
  have hsize : lineSize .ls argument = 2 ^ 31 + 24 := by
    rw [lineSize, hlength, hquotes]
    rfl
  have hquote : quoteSize argument = 2 ^ 33 + 3 := by
    rw [quoteSize_eq (by rw [hlength]; decide), hlength]
    rfl
  refine ⟨argument, List.replicate (2 ^ 31 + 24) 0, rfl, hne, hnul, ?_, ?_, ?_⟩
  · rw [commandBuild_granted .ls hne hnul (by rw [hlength]; decide) (by rw [hquote]; decide)
      (by rw [hsize]; decide), hsize, snprintf_overflow largeLibc (by decide)]
    rfl
  · exact cString_zeros _
  · intro h
    have htokens := h.tokens
    rw [cString_zeros] at htokens
    cases htokens

end WireCommand.Commands
