import YulPruner.Syntax.Parser

namespace YulPruner

inductive FragmentKind where
  | expression
  | block
deriving DecidableEq, Repr

inductive Fragment where
  | expression (e : Expr)
  | block (b : Block)

def Fragment.parser : FragmentKind → Parser Fragment
  | .expression => return .expression (← Parser.expression)
  | .block => return .block (← Parser.block)

/-- What each reading gives, and the stream that the last one leaves. -/
def readFragments :
    List FragmentKind → TokenStream → List (Except ParseError Fragment) × TokenStream
  | [], s => ([], s)
  | kind :: kinds, s =>
    match (Fragment.parser kind).run s with
    | .ok fragment rest =>
      let (others, last) := readFragments kinds rest
      (.ok fragment :: others, last)
    | .error e rest =>
      let (others, last) := readFragments kinds rest
      (.error e :: others, last)

end YulPruner
