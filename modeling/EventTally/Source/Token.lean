import EventTally.Text.Blank
import EventTally.Text.Bytes

/-! # Tokens

The lexical units of source text. At each position the patterns are tried in a fixed order: float,
integer, operator, identifier, string, punctuation, white space, comment. Characters that start
no token are gathered into one error token that ends where a token starts again.

`scan_eq_lexeme` says that a lexeme is a non-empty piece from the front of the text, which makes
`tokenize` total.
-/

namespace EventTally

/-- A piece of source text from byte `start` up to byte `stop`. -/
structure Span where
  start : Nat
  stop : Nat
  deriving DecidableEq, Repr, Inhabited

inductive TokenKind where
  | error
  | eof
  | float
  | int
  | symbol
  | string
  | openParen
  | closeParen
  | openBracket
  | closeBracket
  | openBrace
  | closeBrace
  | openHashBrace
  | openHashBracket
  | quote
  | pin
  | spread
  | blank
  | comment
  deriving DecidableEq, Repr, Inhabited

namespace TokenKind

def all : List TokenKind :=
  [.error, .eof, .float, .int, .symbol, .string, .openParen, .closeParen, .openBracket,
    .closeBracket, .openBrace, .closeBrace, .openHashBrace, .openHashBracket, .quote, .pin,
    .spread, .blank, .comment]

def name : TokenKind → String
  | .error => "ERROR"
  | .eof => "EOF"
  | .float => "FLOAT"
  | .int => "INT"
  | .symbol => "KW"
  | .string => "STRING"
  | .openParen => "SEXPR_OPEN"
  | .closeParen => "SEXPR_CLOSE"
  | .openBracket => "LIST_OPEN"
  | .closeBracket => "LIST_CLOSE"
  | .openBrace => "TUPLE_OPEN"
  | .closeBrace => "TUPLE_CLOSE"
  | .openHashBrace => "DICT_OPEN"
  | .openHashBracket => "SET_OPEN"
  | .quote => "QUOTE"
  | .pin => "UNQUOTE"
  | .spread => "SPREAD"
  | .blank => "WHITESPACE"
  | .comment => "COMMENT"

/-- The name of the kind with a given number, or a question mark. -/
def nameOf (number : Int) : String :=
  if number < 0 then "?" else ((all[number.toNat]?).map name).getD "?"

def isGap : TokenKind → Bool
  | .blank | .comment => true
  | _ => false

end TokenKind

structure Token where
  kind : TokenKind
  text : String
  span : Span
  /-- An error token that is a string literal without its end. -/
  unterminated : Bool := false
  deriving DecidableEq, Repr, Inhabited

namespace Token

-- Each pattern splits a matching piece from the front of the text.

abbrev Split := List Char × List Char

def isDigit (c : Char) : Bool := '0' ≤ c && c ≤ '9'

def isIdentStart (c : Char) : Bool :=
  ('a' ≤ c && c ≤ 'z') || ('A' ≤ c && c ≤ 'Z') || c == '_'

def isIdentChar (c : Char) : Bool := isIdentStart c || isDigit c || c == '-'

/-- The longest piece from the front whose characters all satisfy `p`. -/
def splitWhile (p : Char → Bool) (cs : List Char) : Split := (cs.takeWhile p, cs.dropWhile p)

def literal? : List Char → List Char → Option Split
  | [], cs => some ([], cs)
  | _ :: _, [] => none
  | p :: ps, c :: cs =>
    if p = c then (literal? ps cs).map fun (piece, rest) => (c :: piece, rest) else none

def sign : List Char → Split
  | '+' :: cs => (['+'], cs)
  | '-' :: cs => (['-'], cs)
  | cs => ([], cs)

def int? (cs : List Char) : Option Split :=
  let (s, body) := sign cs
  match splitWhile isDigit body with
  | ([], _) => none
  | (digits, rest) => some (s ++ digits, rest)

def float? (cs : List Char) : Option Split :=
  match int? cs with
  | some (whole, '.' :: rest) =>
    match splitWhile isDigit rest with
    | ([], _) => none
    | (places, rest) => some (whole ++ '.' :: places, rest)
  | _ => none

def operators : List String := ["->", "*", "/", "+", "-", "=", "!=", "<=", ">=", "<", ">"]

def operator? (cs : List Char) : Option Split :=
  operators.findSome? fun op => literal? op.toList cs

/-- A letter or underscore, then letters, digits, underscores and hyphens, then at most one
question or exclamation mark. -/
def ident? : List Char → Option Split
  | [] => none
  | c :: cs =>
    if isIdentStart c then
      match splitWhile isIdentChar cs with
      | (body, '?' :: rest) => some (c :: body ++ ['?'], rest)
      | (body, '!' :: rest) => some (c :: body ++ ['!'], rest)
      | (body, rest) => some (c :: body, rest)
    else none

def symbol? (cs : List Char) : Option Split := (operator? cs).or (ident? cs)

/-- How a string literal goes on after its opening quote. -/
inductive StringEnd where
  | closed (body rest : List Char)
  | unterminated
  /-- A line feed was escaped, which is not allowed. -/
  | broken
  deriving Repr, Inhabited

def StringEnd.cons (cs : List Char) : StringEnd → StringEnd
  | .closed body rest => .closed (cs ++ body) rest
  | e => e

def stringEnd : List Char → StringEnd
  | [] => .unterminated
  | '"' :: rest => .closed ['"'] rest
  | ['\\'] => .unterminated
  | '\\' :: c :: rest => if c = '\n' then .broken else (stringEnd rest).cons ['\\', c]
  | c :: rest => (stringEnd rest).cons [c]

def punctuation : List (String × TokenKind) :=
  [("(", .openParen), (")", .closeParen), ("[", .openBracket), ("]", .closeBracket),
    ("\x7b", .openBrace), ("\x7d", .closeBrace), ("#\x7b", .openHashBrace),
    ("#[", .openHashBracket), ("'", .quote), ("^", .pin), ("&", .spread)]

def punctuation? (cs : List Char) : Option (TokenKind × Split) :=
  punctuation.findSome? fun (text, kind) => (literal? text.toList cs).map fun s => (kind, s)

def blank? (cs : List Char) : Option Split :=
  match splitWhile Text.isBlank cs with
  | ([], _) => none
  | s => some s

/-- A semicolon and the rest of its line, the line feed included. -/
def comment? : List Char → Option Split
  | ';' :: cs =>
    match splitWhile (· != '\n') cs with
    | (body, '\n' :: rest) => some (';' :: body ++ ['\n'], rest)
    | (body, rest) => some (';' :: body, rest)
  | _ => none

inductive Scan where
  | lexeme (kind : TokenKind) (piece rest : List Char)
  /-- A string literal that runs to the end of the text. -/
  | unterminated
  /-- A character that starts no token. -/
  | stray
  deriving Repr, Inhabited

def scanMark (cs : List Char) : Scan :=
  match punctuation? cs with
  | some (kind, piece, rest) => .lexeme kind piece rest
  | none =>
    match blank? cs with
    | some (piece, rest) => .lexeme .blank piece rest
    | none =>
      match comment? cs with
      | some (piece, rest) => .lexeme .comment piece rest
      | none => .stray

def scanText : List Char → Scan
  | '"' :: cs =>
    match stringEnd cs with
    | .closed body rest => .lexeme .string ('"' :: body) rest
    | .unterminated => .unterminated
    | .broken => scanMark ('"' :: cs)
  | cs => scanMark cs

def scan (cs : List Char) : Scan :=
  match float? cs with
  | some (piece, rest) => .lexeme .float piece rest
  | none =>
    match int? cs with
    | some (piece, rest) => .lexeme .int piece rest
    | none =>
      match symbol? cs with
      | some (piece, rest) => .lexeme .symbol piece rest
      | none => scanText cs

theorem literal?_eq_some {p cs piece rest : List Char} (h : literal? p cs = some (piece, rest)) :
    piece = p ∧ cs = piece ++ rest := by
  induction p generalizing cs piece with
  | nil => simp_all [literal?]
  | cons a p ih =>
    cases cs with
    | nil => simp [literal?] at h
    | cons c cs =>
      simp only [literal?] at h
      split at h
      · next hac =>
        obtain ⟨⟨x, y⟩, hx, he⟩ := Option.map_eq_some_iff.1 h
        obtain ⟨rfl, rfl⟩ := Prod.mk.inj he
        obtain ⟨rfl, rfl⟩ := ih hx
        simp [hac]
      · simp at h

theorem splitWhile_append (p : Char → Bool) (cs : List Char) :
    cs = (splitWhile p cs).1 ++ (splitWhile p cs).2 :=
  List.takeWhile_append_dropWhile.symm

theorem sign_append (cs : List Char) : cs = (sign cs).1 ++ (sign cs).2 := by
  unfold sign; split <;> rfl

theorem int?_eq_some {cs piece rest : List Char} (h : int? cs = some (piece, rest)) :
    cs = piece ++ rest ∧ piece ≠ [] := by
  have hs := sign_append cs
  have hd := splitWhile_append isDigit (sign cs).2
  simp only [int?] at h
  split at h
  · simp at h
  · next digits r hne heq =>
    rw [heq] at hd
    simp only [Option.some.injEq, Prod.mk.injEq] at h
    obtain ⟨rfl, rfl⟩ := h
    refine ⟨by rw [List.append_assoc, ← hd, ← hs], ?_⟩
    intro he
    exact hne (List.append_eq_nil_iff.1 he).2

theorem float?_eq_some {cs piece rest : List Char} (h : float? cs = some (piece, rest)) :
    cs = piece ++ rest ∧ piece ≠ [] := by
  unfold float? at h
  split at h
  · next whole r hi =>
    have hd := splitWhile_append isDigit r
    split at h
    · simp at h
    · next places r' _ heq =>
      rw [heq] at hd
      simp only [Option.some.injEq, Prod.mk.injEq] at h
      obtain ⟨rfl, rfl⟩ := h
      obtain ⟨hc, _⟩ := int?_eq_some hi
      exact ⟨by rw [hc, hd]; simp, by simp⟩
  · simp at h

theorem operator?_eq_some {cs piece rest : List Char} (h : operator? cs = some (piece, rest)) :
    cs = piece ++ rest ∧ piece ≠ [] := by
  obtain ⟨op, hop, hl⟩ := List.exists_of_findSome?_eq_some h
  obtain ⟨rfl, hc⟩ := literal?_eq_some hl
  refine ⟨hc, ?_⟩
  have : ∀ op ∈ operators, op.toList ≠ [] := by decide
  exact this op hop

theorem ident?_eq_some {cs piece rest : List Char} (h : ident? cs = some (piece, rest)) :
    cs = piece ++ rest ∧ piece ≠ [] := by
  cases cs with
  | nil => simp [ident?] at h
  | cons c cs =>
    have hd := splitWhile_append isIdentChar cs
    simp only [ident?] at h
    split at h
    · split at h <;>
      · next heq =>
        rw [heq] at hd
        simp only [Option.some.injEq, Prod.mk.injEq] at h
        obtain ⟨rfl, rfl⟩ := h
        exact ⟨by rw [hd]; simp, by simp⟩
    · simp at h

theorem symbol?_eq_some {cs piece rest : List Char} (h : symbol? cs = some (piece, rest)) :
    cs = piece ++ rest ∧ piece ≠ [] := by
  unfold symbol? at h
  rcases Option.or_eq_some_iff.1 h with ho | ⟨_, hi⟩
  · exact operator?_eq_some ho
  · exact ident?_eq_some hi

theorem stringEnd_eq_closed {cs body rest : List Char} (h : stringEnd cs = .closed body rest) :
    cs = body ++ rest := by
  induction cs using stringEnd.induct generalizing body with
  | case1 => simp [stringEnd] at h
  | case2 r => simp only [stringEnd, StringEnd.closed.injEq] at h; simp [← h.1, ← h.2]
  | case3 => simp [stringEnd] at h
  | case4 r => simp [stringEnd] at h
  | case5 c r hc ih =>
    simp only [stringEnd, if_neg hc] at h
    cases hr : stringEnd r with
    | closed b t =>
      rw [hr] at h
      simp only [StringEnd.cons, StringEnd.closed.injEq] at h
      obtain ⟨rfl, rfl⟩ := h
      rw [ih hr]; simp
    | unterminated => rw [hr] at h; simp [StringEnd.cons] at h
    | broken => rw [hr] at h; simp [StringEnd.cons] at h
  | case6 c r h1 h2 h3 ih =>
    rw [stringEnd] at h
    · cases hr : stringEnd r with
      | closed b t =>
        rw [hr] at h
        simp only [StringEnd.cons, StringEnd.closed.injEq] at h
        obtain ⟨rfl, rfl⟩ := h
        rw [ih hr]; simp
      | unterminated => rw [hr] at h; simp [StringEnd.cons] at h
      | broken => rw [hr] at h; simp [StringEnd.cons] at h
    · exact h1
    · exact h2
    · exact h3

theorem punctuation?_eq_some {cs piece rest : List Char} {kind : TokenKind}
    (h : punctuation? cs = some (kind, piece, rest)) : cs = piece ++ rest ∧ piece ≠ [] := by
  obtain ⟨⟨text, k⟩, hp, hl⟩ := List.exists_of_findSome?_eq_some h
  obtain ⟨s, hs, he⟩ := Option.map_eq_some_iff.1 hl
  obtain ⟨rfl, rfl⟩ := Prod.mk.inj he
  obtain ⟨rfl, hc⟩ := literal?_eq_some hs
  refine ⟨hc, ?_⟩
  have : ∀ p ∈ punctuation, p.1.toList ≠ [] := by decide
  exact this _ hp

theorem blank?_eq_some {cs piece rest : List Char} (h : blank? cs = some (piece, rest)) :
    cs = piece ++ rest ∧ piece ≠ [] := by
  have hd := splitWhile_append Text.isBlank cs
  unfold blank? at h
  split at h
  · simp at h
  · next s hne =>
    simp only [Option.some.injEq] at h
    rw [h] at hd hne
    exact ⟨hd, fun he => hne rest (by rw [he])⟩

theorem comment?_eq_some {cs piece rest : List Char} (h : comment? cs = some (piece, rest)) :
    cs = piece ++ rest ∧ piece ≠ [] := by
  unfold comment? at h
  split at h
  · next cs =>
    have hd := splitWhile_append (· != '\n') cs
    split at h <;>
    · next heq =>
      rw [heq] at hd
      simp only [Option.some.injEq, Prod.mk.injEq] at h
      obtain ⟨rfl, rfl⟩ := h
      exact ⟨by rw [hd]; simp, by simp⟩
  · simp at h

theorem scanMark_eq_lexeme {cs piece rest : List Char} {kind : TokenKind}
    (h : scanMark cs = .lexeme kind piece rest) : cs = piece ++ rest ∧ piece ≠ [] := by
  unfold scanMark at h
  split at h
  · next hp => cases h; exact punctuation?_eq_some hp
  · split at h
    · next hb => cases h; exact blank?_eq_some hb
    · split at h
      · next hc => cases h; exact comment?_eq_some hc
      · cases h

theorem scanText_eq_lexeme {cs piece rest : List Char} {kind : TokenKind}
    (h : scanText cs = .lexeme kind piece rest) : cs = piece ++ rest ∧ piece ≠ [] := by
  unfold scanText at h
  split at h
  · split at h
    · next hs => cases h; exact ⟨by rw [stringEnd_eq_closed hs]; simp, by simp⟩
    · cases h
    · exact scanMark_eq_lexeme h
  · exact scanMark_eq_lexeme h

/-- A lexeme is a non-empty piece from the front of the text. -/
theorem scan_eq_lexeme {cs piece rest : List Char} {kind : TokenKind}
    (h : scan cs = .lexeme kind piece rest) : cs = piece ++ rest ∧ piece ≠ [] := by
  unfold scan at h
  split at h
  · next hf => cases h; exact float?_eq_some hf
  · split at h
    · next hi => cases h; exact int?_eq_some hi
    · split at h
      · next hs => cases h; exact symbol?_eq_some hs
      · exact scanText_eq_lexeme h

theorem length_rest_lt {cs piece rest : List Char} {kind : TokenKind}
    (h : scan cs = .lexeme kind piece rest) : rest.length < cs.length := by
  obtain ⟨rfl, hp⟩ := scan_eq_lexeme h
  have := List.length_pos_iff.2 hp
  simp only [List.length_append]
  omega

/-- The error token for the stray characters `cs`, given in reverse, that start at `pos`; none if
there are no such characters. -/
def strays (pos : Nat) (cs : List Char) : List Token :=
  match cs with
  | [] => []
  | cs =>
    [{ kind := .error, text := String.ofList cs.reverse,
       span := ⟨pos, pos + Text.byteLength cs⟩ }]

/-- The tokens of the text `cs`, which starts at byte `pos + byteLength stray`; `stray` holds the
stray characters just before it, in reverse. -/
def tokensFrom (pos : Nat) (stray cs : List Char) : List Token :=
  match cs with
  | [] =>
    let stop := pos + Text.byteLength stray
    strays pos stray ++ [{ kind := .eof, text := "", span := ⟨stop, stop⟩ }]
  | c :: tail =>
    let start := pos + Text.byteLength stray
    match _h : scan (c :: tail) with
    | .lexeme kind piece rest =>
      let stop := start + Text.byteLength piece
      let token : Token := { kind, text := String.ofList piece, span := ⟨start, stop⟩ }
      strays pos stray ++ (if kind.isGap then [] else [token]) ++ tokensFrom stop [] rest
    | .unterminated =>
      let stop := start + Text.byteLength (c :: tail)
      [{ kind := .error, text := String.ofList (stray.reverse ++ c :: tail),
         span := ⟨pos, stop⟩, unterminated := true },
       { kind := .eof, text := "", span := ⟨stop, stop⟩ }]
    | .stray => tokensFrom pos (c :: stray) tail
termination_by cs.length
decreasing_by
  · exact length_rest_lt _h
  · simp

/-- The tokens of a text, the last of which is its end. -/
def tokenize (src : String) : List Token := tokensFrom 0 [] src.toList

def commentIn (cs : List Char) : Bool :=
  match cs with
  | [] => false
  | c :: tail =>
    match _h : scan (c :: tail) with
    | .lexeme .comment _ _ => true
    | .lexeme _ _ rest => commentIn rest
    | .unterminated => false
    | .stray => commentIn tail
termination_by cs.length
decreasing_by
  · exact length_rest_lt _h
  · simp

/-- Whether a text has a comment, which printing its trees would lose. -/
def hasComment (src : String) : Bool := commentIn src.toList

end Token

end EventTally
