import YulPruner.Token.Basic

namespace YulPruner

inductive Piece where
  | token (t : Token)
  | space
  | newline (depth : Nat)
deriving DecidableEq

def indentation (depth : Nat) : String := String.ofList (List.replicate (4 * depth) ' ')

def Piece.text : Piece → String
  | .token t => t.spelling
  | .space => " "
  | .newline depth => "\n" ++ indentation depth

def render (pieces : List Piece) : String := String.join (pieces.map Piece.text)

def Piece.mark (m : Mark) : Piece := .token (.mark m)

def Piece.keyword (k : Keyword) : Piece := .token (.keyword k)

def Piece.name (x : Name) : Piece := .token (.identifier x)

def commaSeparated (items : List (List Piece)) : List Piece :=
  List.intercalate [.mark .comma, .space] items

def namePieces (names : List Name) : List Piece :=
  commaSeparated (names.map fun x => [.name x])

def Literal.token : Literal → Token
  | .number n => .number n
  | .string s => .string s
  | .bool b => .keyword (if b then .true else .false)

mutual

def Expr.pieces : Expr → List Piece
  | .var x => [.name x]
  | .literal l => [.token l.token]
  | .call f arguments =>
    [.name f, .mark .leftParen] ++ commaSeparated (Expr.piecesAll arguments) ++ [.mark .rightParen]
termination_by structural e => e

def Expr.piecesAll : List Expr → List (List Piece)
  | [] => []
  | e :: es => e.pieces :: Expr.piecesAll es
termination_by structural es => es

end

def valuePieces (e : Expr) : List Piece := [.space, .mark .assign, .space] ++ e.pieces

def headerPieces (name : Name) (parameters returns : List Name) : List Piece :=
  [.keyword .function, .space, .name name, .mark .leftParen] ++ namePieces parameters ++
    [.mark .rightParen] ++
    (if returns.isEmpty then [] else [.space, .mark .arrow, .space] ++ namePieces returns)

def casePieces : Option Literal → List Piece
  | some l => [.keyword .case, .space, .token l.token]
  | none => [.keyword .default]

def Jump.keyword : Jump → Keyword
  | .breakLoop => .breakLoop
  | .continueLoop => .continueLoop
  | .leave => .leave

/-- Braces around the lines of a block that stands on a line of the given depth. -/
def inBraces (depth : Nat) (lines : List Piece) : List Piece :=
  if lines.isEmpty then [.mark .leftBrace, .space, .mark .rightBrace]
  else [.mark .leftBrace] ++ lines ++ [.newline depth, .mark .rightBrace]

mutual

def Stmt.pieces (depth : Nat) : Stmt → List Piece
  | .expression e => e.pieces
  | .assignment targets value => namePieces targets ++ valuePieces value
  | .declaration names value =>
    [.keyword .declare, .space] ++ namePieces names ++ (value.map valuePieces).getD []
  | .function ⟨name, parameters, returns, body⟩ =>
    headerPieces name parameters returns ++ [.space] ++
      inBraces depth (Block.lines (depth + 1) body)
  | .conditional condition body =>
    [.keyword .conditional, .space] ++ condition.pieces ++ [.space] ++
      inBraces depth (Block.lines (depth + 1) body)
  | .switch scrutinee cases =>
    [.keyword .switch, .space] ++ scrutinee.pieces ++ Case.lines depth cases
  | .loop pre condition post body =>
    [.keyword .loop, .space] ++ inBraces depth (Block.lines (depth + 1) pre) ++ [.space] ++
      condition.pieces ++ [.space] ++ inBraces depth (Block.lines (depth + 1) post) ++ [.space] ++
      inBraces depth (Block.lines (depth + 1) body)
  | .jump j => [.keyword j.keyword]
  | .block body => inBraces depth (Block.lines (depth + 1) body)
termination_by structural s => s

def Block.lines (depth : Nat) : List Stmt → List Piece
  | [] => []
  | s :: ss => .newline depth :: s.pieces depth ++ Block.lines depth ss
termination_by structural ss => ss

/-- The arms of a switch, each on a line of the given depth. -/
def Case.lines (depth : Nat) : List (CaseOf (List Stmt)) → List Piece
  | [] => []
  | ⟨value, body⟩ :: cases =>
    .newline depth :: casePieces value ++ [.space] ++
      inBraces depth (Block.lines (depth + 1) body) ++ Case.lines depth cases
termination_by structural cases => cases

end

def Block.pieces (depth : Nat) (b : Block) : List Piece :=
  inBraces depth (Block.lines (depth + 1) b)

def Literal.text (l : Literal) : String := l.token.spelling

def Expr.text (e : Expr) : String := render e.pieces

def Stmt.text (s : Stmt) : String := render (s.pieces 0)

def Function.text (f : Function) : String := (Stmt.function f).text

def Block.text (b : Block) : String := render (b.pieces 0)

def Program.text (p : Program) : String := Block.text p.root

end YulPruner
