import Tbouncer.Base.PyText
import Tbouncer.Base.Watch

/-!
# The switch file and its watch

What inotify reports about the file, and the commands a test writes into it.
-/

namespace Tbouncer.Switch
open Base

/- An event on the watched file; the watch descriptor, cookie and name are the
same for all of them. -/
structure Event where
  mask : BitVec 32
  deriving DecidableEq

/- flags.MODIFY. -/
def flagsModify : BitVec 32 := 0x2

def Event.modify : Event := ⟨flagsModify⟩

/- `event.mask & flags.MODIFY`, as a condition. -/
def isModify (e : Event) : Bool := e.mask &&& flagsModify ≠ 0

/- What stops the monitor and the scripts. -/
def off : Text := ['0']
def offBytes : Bytes := encodeUtf8 off

theorem isModify_modify : isModify .modify = true := by decide

end Tbouncer.Switch
