import Tbouncer.Instrument.Meaning
import Tbouncer.Monitor.Headings

/-!
# The name over the calls of a test

modify.py has a test write its base name when it starts and "0" at its end. A test that
leaves its function by a `return` leaves its name in the file, and the calls of the tests
that follow are shown under it, until one of them has come to its end.
-/

namespace Tbouncer.Monitor.Suite
open Base Base.LineFlow Headings Instrument Switch Watch

/- A run of an instrumented test that has ended. -/
structure Ran where
  test : TestFile
  filePath : Text
  writes : List Text
  exit : Exit
  jumps : WellJumped test.body
  plain : Plain test.body
  path : Path (test.instrumented (splitextRoot (basename filePath))) 0 writes exit

/- One that is behind its first line and has not come to its end. -/
structure Running where
  test : TestFile
  filePath : Text
  writes : List Text
  position : ℕ
  plain : Plain test.body
  reach : Reach (test.instrumented (splitextRoot (basename filePath))) 0 writes position
  begun : 0 < position
  within : position < (test.instrumented (splitextRoot (basename filePath))).length

def Ran.base (r : Ran) : Text := splitextRoot (basename r.filePath)
def Running.base (r : Running) : Text := splitextRoot (basename r.filePath)

def finish : Exit → List Text
  | .left => []
  | .closed => [off]

end Tbouncer.Monitor.Suite
