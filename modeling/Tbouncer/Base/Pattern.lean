import Tbouncer.Base.PyText

/-!
# Backtracking patterns

The regular expressions of Python's `re`, as far as they are built from character
classes, sequences, alternatives and greedy repetition. `rests p s` lists what may
remain of `s` after a match of `p` at its start, in the order in which a
backtracking matcher tries them: left alternatives and longer repetitions first.
-/

namespace Tbouncer.Base

inductive Pattern where
  | char (accepts : Char → Bool)
  | empty
  | seq (p q : Pattern)
  | alt (p q : Pattern)
  | star (p : Pattern)

namespace Pattern

/- Repetition of `f`, longest first; a repetition must consume something. -/
def repeatRests (f : Text → List Text) : ℕ → Text → List Text
  | 0, s => [s]
  | fuel + 1, s =>
      ((f s).filter fun t => t.length < s.length).flatMap (repeatRests f fuel) ++ [s]

def rests : Pattern → Text → List Text
  | char _, [] => []
  | char accepts, c :: s => if accepts c then [s] else []
  | empty, s => [s]
  | seq p q, s => (rests p s).flatMap (rests q)
  | alt p q, s => rests p s ++ rests q s
  | star p, s => repeatRests (rests p) s.length s

def lit (s : Text) : Pattern := s.foldr (fun c p => seq (char (· == c)) p) empty
def plus (p : Pattern) : Pattern := seq p (star p)
def opt (p : Pattern) : Pattern := alt p empty

/-- `re.match(p, s)` succeeds. -/
def matchesAt (p : Pattern) (s : Text) : Bool := !(rests p s).isEmpty

/- What `group` captures in the first match of `before` followed by `group` at the
start of `s`. -/
def captureAt (before group : Pattern) (s : Text) : Option Text :=
  ((rests before s).flatMap fun u =>
    (rests group u).map fun v => u.take (u.length - v.length)).head?

/-- `re.search`: the leftmost match, and what `group` captures in it. -/
def search (before group : Pattern) : Text → Option Text
  | [] => captureAt before group []
  | c :: s =>
      match captureAt before group (c :: s) with
      | some g => some g
      | none => search before group s

end Pattern
end Tbouncer.Base
