import Mathlib.Data.List.Infix
import TrIrcd.Lib.Bytes

/-!
# `server/s_motd.c`: files that are shown

A file is the lines `read_message_file` has kept of it, strings without the NUL.
The date of a file and what the numerics say beside their argument are left out.
-/

namespace TrIrcd

open TrIrcd.Lib

/-- `"};"` -/
def closer : List UInt8 := [0x7d, 0x3b]

/-- `strstr` finds something. -/
def strstrFinds (haystack needle : List UInt8) : Bool := needle <:+: haystack

inductive ConfigReply
  /-- `RPL_DISPLAYSTART` -/
  | displayStart (sect : List UInt8)
  /-- `RPL_DISPLAY` -/
  | display (line : List UInt8)
  /-- `RPL_ENDOFDISPLAY` -/
  | endOfDisplay
deriving DecidableEq, Repr

inductive MotdFault
  | nullPointer
deriving DecidableEq, Repr

/-- The test of the outer loop. -/
def startsSection (sect line : List UInt8) : Bool :=
  strstrFinds line sect && line.headD 0 = sect.headD 0

/-- The inner loop: the lines it displays, and where it leaves `temp`. -/
def showSection : List (List UInt8) → Except MotdFault (List (List UInt8) × List (List UInt8))
  | [] => .error .nullPointer
  | line :: temp =>
      if strstrFinds closer line then .ok ([], line :: temp)
      else (showSection temp).map fun (shown, temp) => (line :: shown, temp)

theorem showSection_length {lines shown temp : List (List UInt8)}
    (h : showSection lines = .ok (shown, temp)) : temp.tail.length < lines.length := by
  induction lines generalizing shown with
  | nil => cases h
  | cons line lines ih =>
      rw [showSection] at h
      split at h
      · cases h
        exact Nat.lt_succ_self _
      · cases hs : showSection lines with
        | error fault => rw [hs] at h; cases h
        | ok found =>
            rw [hs] at h
            cases h
            exact Nat.lt_succ_of_lt (ih hs)

/-- `send_config_file`, from the line `temp` on. -/
def sendConfigFile (sect : List UInt8) (temp : List (List UInt8)) :
    Except MotdFault (List ConfigReply) :=
  match temp with
  | [] => .ok [.endOfDisplay]
  | line :: next =>
      if startsSection sect line then
        match _ : showSection (line :: next) with
        | .error fault => .error fault
        | .ok (shown, temp) => (sendConfigFile sect temp.tail).map fun out =>
            .displayStart sect :: shown.map .display ++ .display closer :: out
      else sendConfigFile sect next
termination_by temp.length
decreasing_by
  · next h => exact showSection_length h
  · exact Nat.lt_succ_self _

end TrIrcd
