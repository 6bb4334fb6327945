import Mathlib.Data.BitVec

namespace LearnNote.Muduo

def EPOLLIN : BitVec 32 := 0x001
def EPOLLPRI : BitVec 32 := 0x002
def EPOLLOUT : BitVec 32 := 0x004
def EPOLLERR : BitVec 32 := 0x008
def EPOLLHUP : BitVec 32 := 0x010

/-- The events that a file descriptor is watched for. -/
structure Channel where
  events : BitVec 32
deriving DecidableEq

namespace Channel

def kNoneEvent : BitVec 32 := 0
def kReadEvent : BitVec 32 := EPOLLIN ||| EPOLLPRI
def kWriteEvent : BitVec 32 := EPOLLOUT

def enable (mask : BitVec 32) (c : Channel) : Channel := { c with events := c.events ||| mask }

def disable (mask : BitVec 32) (c : Channel) : Channel := { c with events := c.events &&& ~~~mask }

def enableReading : Channel → Channel := enable kReadEvent
def disableReading : Channel → Channel := disable kReadEvent
def enableWriting : Channel → Channel := enable kWriteEvent
def disableWriting : Channel → Channel := disable kWriteEvent

def disableAll (c : Channel) : Channel := { c with events := kNoneEvent }

def isNoneEvent (c : Channel) : Bool := c.events == kNoneEvent
def isWriting (c : Channel) : Bool := c.events &&& kWriteEvent != 0
def isReading (c : Channel) : Bool := c.events &&& kReadEvent != 0

theorem or_and_mask (e m : BitVec 32) : (e ||| m) &&& m = m := by
  ext i hi
  simpa using fun h : m[i] = true => Or.inr h

theorem and_not_and_mask (e m : BitVec 32) : e &&& ~~~m &&& m = 0 := by
  ext i hi
  simp

@[simp]
theorem isWriting_enableWriting (c : Channel) : c.enableWriting.isWriting = true := by
  simp only [isWriting, enableWriting, enable, or_and_mask]
  decide

@[simp]
theorem isWriting_disableWriting (c : Channel) : c.disableWriting.isWriting = false := by
  simp only [isWriting, disableWriting, disable, and_not_and_mask]
  decide

@[simp]
theorem isWriting_disableAll (c : Channel) : c.disableAll.isWriting = false := by
  simp only [isWriting, disableAll]
  decide

end Channel

end LearnNote.Muduo
