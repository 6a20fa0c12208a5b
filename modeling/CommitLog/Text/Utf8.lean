/-!
# UTF-8

`encode` writes characters as bytes and `decode` reads them back, one byte at a time.  Between two
characters the reader accepts a lead byte; inside a character it accepts the continuation bytes that
the lead byte allows, which rules out overlong forms, surrogates and numbers above `10FFFF`.
A `Flaw` says where the first fault lies.
-/

namespace CommitLog.Utf8

def encode (text : List Char) : List UInt8 := text.flatMap String.utf8EncodeChar

def ofString (text : String) : List UInt8 := encode text.toList

/-- Why bytes are not UTF-8.  Both cases give the position of the faulty character. -/
inductive Flaw where
  /-- The first `size` bytes of the faulty character fit no character. -/
  | invalid (start size : Nat)
  /-- The bytes end inside a character. -/
  | incomplete (start : Nat)
  deriving DecidableEq, Repr

def Flaw.message : Flaw → String
  | .invalid start size =>
    "invalid utf-8 sequence of " ++ toString size ++ " bytes from index " ++ toString start
  | .incomplete start => "incomplete utf-8 byte sequence from index " ++ toString start

/-- A character whose lead byte has been read. -/
structure Pending where
  /-- Position of the lead byte. -/
  start : Nat
  /-- Bytes read so far. -/
  size : Nat
  /-- Continuation bytes still owed, less one. -/
  owed : Nat
  /-- The least byte accepted next. -/
  low : UInt8
  /-- The greatest byte accepted next. -/
  high : UInt8
  /-- The bits collected so far. -/
  value : Nat
  deriving DecidableEq, Repr

/-- What a lead byte above `7F` announces. -/
def Pending.ofLead? (start : Nat) (lead : UInt8) : Option Pending :=
  let n := lead.toNat
  if n < 0xC2 then none
  else if n < 0xE0 then some ⟨start, 1, 0, 0x80, 0xBF, n - 0xC0⟩
  else if n = 0xE0 then some ⟨start, 1, 1, 0xA0, 0xBF, 0⟩
  else if n = 0xED then some ⟨start, 1, 1, 0x80, 0x9F, 0xD⟩
  else if n < 0xF0 then some ⟨start, 1, 1, 0x80, 0xBF, n - 0xE0⟩
  else if n = 0xF0 then some ⟨start, 1, 2, 0x90, 0xBF, 0⟩
  else if n < 0xF4 then some ⟨start, 1, 2, 0x80, 0xBF, n - 0xF0⟩
  else if n = 0xF4 then some ⟨start, 1, 2, 0x80, 0x8F, 4⟩
  else none

/-- Reads bytes from position `at`, inside a character when one is pending. -/
def scan (position : Nat) : Option Pending → List UInt8 → Except Flaw (List Char)
  | none, [] => .ok []
  | some p, [] => .error (.incomplete p.start)
  | none, b :: rest =>
    if b < 0x80 then (scan (position + 1) none rest).map (Char.ofNat b.toNat :: ·)
    else match Pending.ofLead? position b with
      | none => .error (.invalid position 1)
      | some p => scan (position + 1) (some p) rest
  | some p, b :: rest =>
    if b < p.low || p.high < b then .error (.invalid p.start p.size)
    else
      let value := p.value * 64 + (b.toNat - 0x80)
      match p.owed with
      | 0 => (scan (position + 1) none rest).map (Char.ofNat value :: ·)
      | owed + 1 => scan (position + 1) (some ⟨p.start, p.size + 1, owed, 0x80, 0xBF, value⟩) rest

/-- The characters of a byte sequence, or its first flaw. -/
def decode (bytes : List UInt8) : Except Flaw (List Char) := scan 0 none bytes

/-- The string of a byte sequence, or its first flaw. -/
def decodeString (bytes : List UInt8) : Except Flaw String := (decode bytes).map String.ofList

end CommitLog.Utf8
