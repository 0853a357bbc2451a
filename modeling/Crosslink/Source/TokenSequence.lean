import Crosslink.Source.Piece

/-!
# Token sequences

`tokenize` reads a source text into its tokens, pairing every bracket with its partner, and notes
where the documentation comments stand. The rest of this module finds its way in the result:
the arguments of a bracketed list, and the documentation comment between two places.
-/

namespace Crosslink.Source

/-- The tokens of a source text, and the spans of its documentation comments in order. -/
structure TokenSequence where
  tokens : Array Token
  docs : List Span
  deriving Repr

/-- Why brackets do not pair. -/
inductive BracketError where
  | unclosed (opener : Text)
  | unmatched (closer : Text)
  | crossed (closer opener : Text)
  deriving DecidableEq, Repr

namespace BracketError

/-- The error in words. -/
def message : BracketError → Text
  | unclosed opener => "unclosed '" ++ opener ++ "'"
  | unmatched closer => "unmatched '" ++ closer ++ "'"
  | crossed closer opener => "'" ++ closer ++ "' does not close '" ++ opener ++ "'"

end BracketError

/-- What has been read of a source text: tokens and comments so far, and the brackets still open
with their indices, innermost first. -/
structure Reading where
  tokens : Array Token := #[]
  docs : List Span := []
  opened : List (Nat × Token) := []

namespace Reading

/-- Add a token that pairs with none yet. -/
def push (r : Reading) (t : Token) : Reading := { r with tokens := r.tokens.push t }

/-- Add a token of this kind. An opening bracket waits for its partner, and a closing one must be
the partner of the bracket opened last. -/
def token (r : Reading) (kind : TokenKind) (span : Span) (text : Text) :
    Except BracketError Reading :=
  let t : Token := ⟨kind, span, text, none⟩
  let index := r.tokens.size
  if kind.opens then .ok { r.push t with opened := (index, t) :: r.opened }
  else match kind.closes with
    | none => .ok (r.push t)
    | some openers =>
      match r.opened with
      | [] => .error (.unmatched text)
      | (i, o) :: rest =>
        if openers.contains o.kind then
          let paired := r.tokens.modify i fun o => { o with partner := some index }
          .ok { r with tokens := paired.push { t with partner := some i }, opened := rest }
        else .error (.crossed text o.text)

end Reading

/-- Read the pieces of `source` from byte `offset` on. -/
def readPieces (source : Text) (offset : Nat) (r : Reading) :
    List Piece → Except SyntaxError TokenSequence
  | [] =>
    match r.opened with
    | (_, o) :: _ => .error (.locate source o.span.start (BracketError.message (.unclosed o.text)))
    | [] => .ok ⟨r.tokens, r.docs.reverse⟩
  | p :: rest =>
    let stop := offset + Text.width p.text
    match p.kind with
    | .broken defect => .error (.locate source offset defect.message)
    | .doc => readPieces source stop { r with docs := ⟨offset, stop⟩ :: r.docs } rest
    | .token kind =>
      match r.token kind ⟨offset, stop⟩ p.text with
      | .ok r => readPieces source stop r rest
      | .error e => .error (.locate source offset e.message)
    | _ => readPieces source stop r rest

/-- Read a source text. -/
def tokenize (source : Text) : Except SyntaxError TokenSequence :=
  readPieces source 0 {} (cut source)

/-- One argument of a bracketed list. -/
structure Argument where
  span : Span
  text : Text
  deriving DecidableEq, Repr

namespace TokenSequence

/-- The kind of the token at an index. -/
def kindAt (l : TokenSequence) (i : Nat) : Option TokenKind := l.tokens[i]?.map Token.kind

/-- True when the token at an index has this kind. -/
def isKind (l : TokenSequence) (i : Nat) (kind : TokenKind) : Bool := l.kindAt i = some kind

/-- The partner of the token at an index. -/
def partnerAt (l : TokenSequence) (i : Nat) : Option Nat := l.tokens[i]?.bind Token.partner

/-- The index of the last token of what begins at an index: the partner of an opening bracket,
and the token itself otherwise. -/
def lastOf (l : TokenSequence) (i : Nat) : Nat :=
  match l.partnerAt i with
  | some p => if i < p then p else i
  | none => i

theorem le_lastOf (l : TokenSequence) (i : Nat) : i ≤ l.lastOf i := by
  unfold lastOf
  split
  · split <;> omega
  · omega

/-- The end of the token at an index. -/
def stopAt (l : TokenSequence) (i : Nat) : Nat := (l.tokens[i]?.map (·.span.stop)).getD 0

/-- The argument from the token `first` to the token `last`. -/
def argument (l : TokenSequence) (source : Text) (first last : Nat) : Argument :=
  let span : Span := ⟨(l.tokens[first]?.map (·.span.start)).getD 0, l.stopAt last⟩
  ⟨span, span.slice source⟩

/-- The arguments between the tokens `i` and `close`. `open?` is the argument being read: its first
and its last token so far. Brackets are passed over whole, and an empty slot is no argument. -/
def argumentsFrom (l : TokenSequence) (source : Text) (close : Nat) (open? : Option (Nat × Nat))
    (i : Nat) : List Argument :=
  let finished := (open?.map fun (f, t) => l.argument source f t).toList
  if i < close then
    if l.isKind i .comma then finished ++ argumentsFrom l source close none (i + 1)
    else
      let last := l.lastOf i
      argumentsFrom l source close (some ((open?.map Prod.fst).getD i, last)) (last + 1)
  else finished
termination_by close - i
decreasing_by
  · omega
  · have := l.le_lastOf i
    omega

/-- The arguments of the list opened by the bracket at an index; none when it is no bracket. -/
def arguments (l : TokenSequence) (source : Text) (opener : Nat) : List Argument :=
  match l.partnerAt opener with
  | some close => l.argumentsFrom source close none (opener + 1)
  | none => []

/-- The last documentation comment between two offsets. -/
def docBetween (l : TokenSequence) (start stop : Nat) : Option Span :=
  l.docs.reverse.find? fun d => start ≤ d.start && d.stop ≤ stop

/-- The index of the first token from `i` on, before `stop`, of one of these kinds. -/
def findKind (l : TokenSequence) (kinds : List TokenKind) (stop i : Nat) : Option Nat :=
  if i < stop then
    if (l.kindAt i).any kinds.contains then some i else findKind l kinds stop (i + 1)
  else none
termination_by stop - i

theorem le_of_findKind {l : TokenSequence} {kinds : List TokenKind} {stop i j : Nat}
    (h : l.findKind kinds stop i = some j) : i ≤ j ∧ j < stop := by
  fun_induction findKind l kinds stop i with
  | case1 i hi hk => cases h; omega
  | case2 i hi hk ih => have := ih h; omega
  | case3 i hi => cases h

end TokenSequence

end Crosslink.Source
