import Mathlib.Data.List.Basic

/-!
# The lexical rules of the POSIX shell

A lexer for the part of the shell's token recognition that quoting is about. It reads a command
line byte by byte in one of three modes:

* **unquoted**: blanks end a word, metacharacters act, a single quote opens a quoted run, a
  backslash escapes the next byte, and every other byte stands for itself;
* **single-quoted**: every byte up to the closing quote stands for itself;
* **escaped**: the next byte stands for itself, and an escaped newline is dropped.

What a metacharacter would go on to do is not modelled. It leaves its own token behind, so a
command line whose tokens are words and one redirection has no other unquoted metacharacter. A run
of unquoted digits right before `<` or `>` is an IO number, as the standard has it, and not a word.
-/

namespace Foundation.Shell

/-- The lexer's quoting modes. -/
inductive Mode where
  | unquoted
  | singleQuoted
  | escaped
  deriving DecidableEq, Repr

/-- What a byte does in unquoted text. -/
inductive Role where
  | blank
  | operator
  | quote
  | escape
  | special
  | ordinary
  deriving DecidableEq, Repr

/-- The single quote. -/
def quoteByte : UInt8 := 39

/-- The backslash. -/
def escapeByte : UInt8 := 92

/-- Space and tab. -/
def blanks : List UInt8 := [' '.toUInt8, '\t'.toUInt8]

/-- The bytes operators are made of: control operators, redirections and the newline. -/
def operators : List UInt8 :=
  ['\n'.toUInt8, '&'.toUInt8, '('.toUInt8, ')'.toUInt8, ';'.toUInt8, '<'.toUInt8, '>'.toUInt8,
    '|'.toUInt8]

/-- The bytes that start an expansion, a pattern, a comment or a double-quoted run; the double quote
is 34 and the back quote 96. -/
def specials : List UInt8 :=
  [34, '#'.toUInt8, '$'.toUInt8, '*'.toUInt8, '?'.toUInt8, '['.toUInt8, '~'.toUInt8, '='.toUInt8,
    '%'.toUInt8, 96]

/-- The role of a byte in unquoted text. -/
def role (b : UInt8) : Role :=
  if b ∈ blanks then .blank
  else if b ∈ operators then .operator
  else if b = quoteByte then .quote
  else if b = escapeByte then .escape
  else if b ∈ specials then .special
  else .ordinary

/-- A token, with its quoting removed. -/
inductive Token where
  | word (bytes : List UInt8)
  | ioNumber (digits : List UInt8)
  | operator (byte : UInt8)
  | special (byte : UInt8)
  deriving DecidableEq, Repr

/-- A word that is being read: its bytes so far, and whether all of them were unquoted. -/
structure Word where
  bytes : List UInt8
  plain : Bool
  deriving DecidableEq, Repr

/-- The lexer between two bytes. -/
structure State where
  mode : Mode
  word : Option Word
  tokens : List Token
  deriving DecidableEq, Repr

/-- The lexer before the first byte. -/
def State.start : State := ⟨.unquoted, none, []⟩

/-- Adds a byte to the word that is being read, or starts one. -/
def State.push (s : State) (b : UInt8) (plain : Bool) : State :=
  match s.word with
  | none => { s with word := some ⟨[b], plain⟩ }
  | some w => { s with word := some ⟨w.bytes ++ [b], w.plain && plain⟩ }

/-- A quote belongs to a word even when nothing stands between the quotes. -/
def State.openQuote (s : State) : State :=
  { s with
    mode := .singleQuoted
    word := some ⟨(s.word.map Word.bytes).getD [], false⟩ }

/-- Ends the word that is being read. -/
def State.flush (s : State) : State :=
  match s.word with
  | none => s
  | some w => { s with word := none, tokens := s.tokens ++ [.word w.bytes] }

def isDigit (b : UInt8) : Bool := '0'.toUInt8 ≤ b && b ≤ '9'.toUInt8

/-- Ends the word before an operator byte: unquoted digits before a redirection number it. -/
def State.flushBefore (s : State) (b : UInt8) : State :=
  match s.word with
  | none => s
  | some w =>
      if w.plain && w.bytes.all isDigit && (b == '<'.toUInt8 || b == '>'.toUInt8) then
        { s with word := none, tokens := s.tokens ++ [.ioNumber w.bytes] }
      else
        s.flush

/-- One byte. -/
def step (s : State) (b : UInt8) : State :=
  match s.mode with
  | .singleQuoted => if b = quoteByte then { s with mode := .unquoted } else s.push b false
  | .escaped =>
      if b = '\n'.toUInt8 then { s with mode := .unquoted }
      else { s.push b false with mode := .unquoted }
  | .unquoted =>
      match role b with
      | .blank => s.flush
      | .operator => { s.flushBefore b with tokens := (s.flushBefore b).tokens ++ [.operator b] }
      | .quote => s.openQuote
      | .escape => { s with mode := .escaped }
      | .special => { s.flush with tokens := s.flush.tokens ++ [.special b] }
      | .ordinary => s.push b true

/-- The lexer after some bytes. -/
def run (s : State) (bytes : List UInt8) : State := bytes.foldl step s

/-- The tokens of a command line; `none` when it ends inside a quotation. -/
def tokenize (line : List UInt8) : Option (List Token) :=
  let s := run .start line
  if s.mode = .unquoted then some s.flush.tokens else none

@[simp] theorem run_nil (s : State) : run s [] = s := rfl

@[simp] theorem run_cons (s : State) (b : UInt8) (bytes : List UInt8) :
    run s (b :: bytes) = run (step s b) bytes := rfl

@[simp] theorem run_append (s : State) (as bs : List UInt8) :
    run s (as ++ bs) = run (run s as) bs := List.foldl_append

/-! ## Outside quotes -/

/-- Ordinary bytes go into the word that is being read. -/
theorem run_ordinary {bytes : List UInt8} (h : ∀ b ∈ bytes, role b = .ordinary) (w : Word)
    (tokens : List Token) :
    run ⟨.unquoted, some w, tokens⟩ bytes = ⟨.unquoted, some ⟨w.bytes ++ bytes, w.plain⟩, tokens⟩ := by
  induction bytes generalizing w with
  | nil => simp
  | cons b rest ih =>
      have hb : role b = .ordinary := h b List.mem_cons_self
      have hstep : step ⟨.unquoted, some w, tokens⟩ b =
          ⟨.unquoted, some ⟨w.bytes ++ [b], w.plain⟩, tokens⟩ := by
        simp [step, hb, State.push]
      rw [run_cons, hstep, ih fun c hc => h c (List.mem_cons_of_mem b hc)]
      simp

/-- An ordinary byte starts a word. -/
theorem step_ordinary {b : UInt8} (h : role b = .ordinary) (tokens : List Token) :
    step ⟨.unquoted, none, tokens⟩ b = ⟨.unquoted, some ⟨[b], true⟩, tokens⟩ := by
  simp [step, h, State.push]

/-- A blank ends a word. -/
theorem step_blank {b : UInt8} (h : role b = .blank) (w : Word) (tokens : List Token) :
    step ⟨.unquoted, some w, tokens⟩ b = ⟨.unquoted, none, tokens ++ [.word w.bytes]⟩ := by
  simp [step, h, State.flush]

/-- Digits in front of `>` number the redirection. -/
theorem step_redirect {digits : List UInt8} (h : digits.all isDigit) (tokens : List Token) :
    step ⟨.unquoted, some ⟨digits, true⟩, tokens⟩ '>'.toUInt8 =
      ⟨.unquoted, none, tokens ++ [.ioNumber digits, .operator '>'.toUInt8]⟩ := by
  have hrole : role '>'.toUInt8 = .operator := by decide
  simp [step, hrole, State.flushBefore, h]

/-! ## Inside quotes -/

/-- A byte between single quotes goes into the word as it is. -/
theorem step_singleQuoted {w : Word} {tokens : List Token} {b : UInt8} (h : b ≠ quoteByte) :
    step ⟨.singleQuoted, some w, tokens⟩ b =
      ⟨.singleQuoted, some ⟨w.bytes ++ [b], false⟩, tokens⟩ := by
  simp [step, h, State.push]

/-- The idiom for a quote inside single quotes: close, escape a quote, open again. -/
theorem run_escapedQuote {w : Word} {tokens : List Token} :
    run ⟨.singleQuoted, some w, tokens⟩ [quoteByte, escapeByte, quoteByte, quoteByte] =
      ⟨.singleQuoted, some ⟨w.bytes ++ [quoteByte], false⟩, tokens⟩ := by
  have hquote : role quoteByte = .quote := by decide
  have hescape : role escapeByte = .escape := by decide
  have hnewline : quoteByte ≠ '\n'.toUInt8 := by decide
  simp [step, hquote, hescape, hnewline, State.push, State.openQuote]

end Foundation.Shell
