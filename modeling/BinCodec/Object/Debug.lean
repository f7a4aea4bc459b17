import BinCodec.Object.Content

/-!
# Diagnostic text of objects

The diagnostic text of a content names its records and variants and quotes its texts. In a
quoted text the quote, the backslash and ASCII control characters are escaped; all other
characters stand for themselves.
-/

namespace BinCodec

/-- A character inside quotes of the given kind. -/
def escapeChar (quote c : Char) : String :=
  if c = quote then "\\" ++ String.singleton c
  else if c = '\\' then "\\\\"
  else if c = '\t' then "\\t"
  else if c = '\r' then "\\r"
  else if c = '\n' then "\\n"
  else if c = '\x00' then "\\0"
  else if c.toNat < 0x20 ∨ c.toNat = 0x7f then
    "\\u\x7b" ++ String.ofList (Nat.toDigits 16 c.toNat) ++ "\x7d"
  else String.singleton c

def quoteText (s : String) : String :=
  "\"" ++ String.join (s.toList.map (escapeChar '"')) ++ "\""

def quoteChar (c : Char) : String := "'" ++ escapeChar '\'' c ++ "'"

/-- Items between brackets, separated by commas. -/
def bracketed (opening closing : String) (items : List String) : String :=
  opening ++ ", ".intercalate items ++ closing

namespace Content

/-- The text of a variant, given the text of its payload. A record payload bears the name
of the variant already. -/
def variantText (name : String) (payload : Content) (text : String) : String :=
  match payload with
  | unit => name
  | tuple _ => name ++ text
  | record _ _ => text
  | _ => name ++ "(" ++ text ++ ")"

mutual

/-- The diagnostic text of a content. Floats show their bits. -/
def debug : Content → String
  | unit => "()"
  | bool b => if b then "true" else "false"
  | integer n => toString n
  | char c => quoteChar c
  | text s => quoteText s
  | bytes b => bracketed "[" "]" (b.map fun x => toString x.toNat)
  | float x => toString x.bits.toNat
  | absent => "None"
  | present value => "Some(" ++ value.debug ++ ")"
  | tuple items => bracketed "(" ")" (debugItems items)
  | sequence items => bracketed "[" "]" (debugItems items)
  | dictionary entries => bracketed "\x7b" "\x7d" (debugEntries entries)
  | pairs entries => bracketed "[" "]" (debugPairs entries)
  | record name fields => name ++ bracketed " \x7b " " \x7d" (debugFields fields)
  | variant _ name payload => variantText name payload payload.debug
  | untagged _ name payload => variantText name payload payload.debug
  | rejected reason => quoteText reason

def debugItems : List Content → List String
  | [] => []
  | x :: xs => x.debug :: debugItems xs

/-- The entries of a map, key and value joined by a colon. -/
def debugEntries : List (Content × Content) → List String
  | [] => []
  | (k, v) :: es => (k.debug ++ ": " ++ v.debug) :: debugEntries es

def debugPairs : List (Content × Content) → List String
  | [] => []
  | (k, v) :: es => bracketed "(" ")" [k.debug, v.debug] :: debugPairs es

def debugFields : List (String × Content) → List String
  | [] => []
  | (name, x) :: fs => (name ++ ": " ++ x.debug) :: debugFields fs

end

end Content

end BinCodec
