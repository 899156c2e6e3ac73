/-
# Strings in a channel's expression

`nix_escape_string` of `crates/server/src/routes/channels.rs` writes the names,
descriptions and paths of an evaluation into the `default.nix` of a channel.
`readString` is Nix's reading of a double-quoted string: with any text after
it, an escaped string is read as what it was and as nothing else.
-/
import Mathlib

namespace Circus.Server.Channels

/-- The character written after a backslash, where `nix_escape_string` escapes. -/
def escaped : Char → Option Char
  | '"' => some '"'
  | '\\' => some '\\'
  | '\n' => some 'n'
  | '\r' => some 'r'
  | '\t' => some 't'
  | '$' => some '$'
  | _ => none

def escapeChar (c : Char) : List Char := (escaped c).elim [c] fun e => ['\\', e]

def nixEscapeString (s : String) : String := String.ofList ('"' :: s.toList.flatMap escapeChar ++ ['"'])

/-! ### Nix's lexer -/

/-- The character an escape stands for. -/
def unescape : Char → Char
  | 'n' => '\n'
  | 'r' => '\r'
  | 't' => '\t'
  | c => c

/-- What is read of a string, and the text after it. -/
inductive Lexed
  | closed (text rest : List Char)
  /-- It goes on with an expression. -/
  | antiquotation (text rest : List Char)
  | unterminated
  deriving DecidableEq

def Lexed.cons (c : Char) : Lexed → Lexed
  | closed text rest => closed (c :: text) rest
  | antiquotation text rest => antiquotation (c :: text) rest
  | unterminated => unterminated

/-- The rest of a string, after its opening quote. -/
def readString : List Char → Lexed
  | [] => .unterminated
  | '"' :: rest => .closed [] rest
  | '\\' :: c :: rest => (readString rest).cons (unescape c)
  | ['\\'] => .unterminated
  | '$' :: '\x7b' :: rest => .antiquotation [] rest
  | '\r' :: rest => (readString rest).cons '\n'
  | c :: rest => (readString rest).cons c

/-- A text that begins with a string. -/
def readLiteral : List Char → Option Lexed
  | '"' :: rest => some (readString rest)
  | _ => none

theorem unescape_of_escaped {c e : Char} (h : escaped c = some e) : unescape e = c := by
  unfold escaped at h
  split at h <;> cases h <;> rfl

theorem ne_of_escaped_eq_none {c : Char} (h : escaped c = none) : c ≠ '"' ∧ c ≠ '\\' ∧ c ≠ '\r' ∧ c ≠ '$' :=
  ⟨(by rintro rfl; cases h), (by rintro rfl; cases h), (by rintro rfl; cases h), (by rintro rfl; cases h)⟩

theorem readString_escapeChar (c : Char) (rest : List Char) :
    readString (escapeChar c ++ rest) = (readString rest).cons c := by
  unfold escapeChar
  cases h : escaped c with
  | some =>
    rw [Option.elim_some, List.cons_append, List.singleton_append, readString, unescape_of_escaped h]
  | none =>
    obtain ⟨hquote, hbackslash, hreturn, hdollar⟩ := ne_of_escaped_eq_none h
    rw [Option.elim_none, List.singleton_append, readString]
    all_goals simp_all

theorem readString_flatMap : ∀ (text rest : List Char),
    readString (text.flatMap escapeChar ++ '"' :: rest) = .closed text rest
  | [], rest => rfl
  | c :: text, rest => by
    rw [List.flatMap_cons, List.append_assoc, readString_escapeChar, readString_flatMap text rest]
    rfl

/-- **An escaped string is read back**, whatever follows it, and nothing in it
is taken for an expression. -/
theorem escaped_string_read_back (s r : String) :
    readLiteral (nixEscapeString s ++ r).toList = some (.closed s.toList r.toList) := by
  have htext : (nixEscapeString s ++ r).toList = '"' :: (s.toList.flatMap escapeChar ++ '"' :: r.toList) := by
    simp [nixEscapeString]
  rw [htext, readLiteral, readString_flatMap]

example : readLiteral "\"a$\x7bb\x7d\"".toList = some (.antiquotation ['a'] "b\x7d\"".toList) ∧
    nixEscapeString "a$\x7bb\x7d" = "\"a\\$\x7bb\x7d\"" := by
  decide

end Circus.Server.Channels
