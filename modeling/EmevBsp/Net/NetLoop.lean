import EmevBsp.LibGeneric.String
import Mathlib.Algebra.Group.Nat.Defs
import Mathlib.Tactic.Common

/-!
# `net/net.c`: the state of `NetLoop`

`NetLoop` hands every received UDP datagram to `packetHandler` and calls `timeHandler` when the
timer has run out, until `NetState` is no longer `NETLOOP_CONTINUE`.  The protocols install
their own handlers and end the loop by setting `NetState`.

The build is the one without `CONFIG_NET_MULTI`.  Times are left out: a timer that is set may
run out at any moment.
-/

namespace EmevBsp
namespace Net

/-- `NETLOOP_CONTINUE` and its kind. -/
inductive NetState where
  | continue
  | restart
  | success
  | fail
  deriving DecidableEq

/-- The functions that are installed as `packetHandler`. -/
inductive PacketHandler where
  | startAgainHandler
  | tftpHandler
  | dhcpHandler
  | nfsHandler
  deriving DecidableEq

/-- The functions that are installed as `timeHandler`. -/
inductive TimeHandler where
  | startAgainTimeout
  | tftpTimeout
  deriving DecidableEq

/-- The globals of the loop, and the value of the environment variable `netretry`. -/
structure NetLoop where
  netState : NetState
  packetHandler : PacketHandler
  timeHandler : Option TimeHandler
  netretry : Option (List UInt8)

namespace NetLoop

def netSetHandler (n : NetLoop) (f : PacketHandler) : NetLoop := { n with packetHandler := f }

/-- The interval is never zero here. -/
def netSetTimeout (n : NetLoop) (f : TimeHandler) : NetLoop := { n with timeHandler := some f }

def startAgainTimeout (n : NetLoop) : NetLoop := { n with netState := .restart }

/-- The string `"no"`. -/
def noText : List UInt8 := [110, 111]

/-- The variable `noretry`. -/
def noretry (n : NetLoop) : Bool :=
  match n.netretry with
  | none => false
  | some nretry => strcmp nretry noText = 0

def netStartAgain (n : NetLoop) : NetLoop :=
  if n.noretry then { n with netState := .fail }
  else (n.netSetTimeout .startAgainTimeout).netSetHandler .startAgainHandler

/-- The loop still runs, and received datagrams go to `f`. -/
def listens (n : NetLoop) (f : PacketHandler) : Bool :=
  n.netState = .continue ∧ n.packetHandler = f

theorem netStartAgain_not_success (n : NetLoop) (h : n.netState = .continue) :
    n.netStartAgain.netState ≠ .success := by
  unfold netStartAgain
  split
  · exact NetState.noConfusion
  · rw [netSetHandler, netSetTimeout, h]
    exact NetState.noConfusion

theorem netStartAgain_listens (n : NetLoop) {f : PacketHandler} (hf : f ≠ .startAgainHandler) :
    n.netStartAgain.listens f = false := by
  unfold netStartAgain listens
  split
  · simp
  · simp [netSetHandler, Ne.symm hf]

end NetLoop

/-! ## Sixteen-bit fields -/

/-- `ntohs` of the field with these two bytes. -/
def ntohs (hi lo : UInt8) : ℕ := hi.toNat * 256 + lo.toNat

/-- The two bytes of `htons`. -/
def htons (n : ℕ) : List UInt8 := [UInt8.ofNat (n / 256), UInt8.ofNat n]

theorem ntohs_htons (n : ℕ) :
    ntohs (UInt8.ofNat (n / 256)) (UInt8.ofNat n) = n % 2 ^ 16 := by
  rw [ntohs, UInt8.toNat_ofNat', UInt8.toNat_ofNat']
  omega

/-- A UDP datagram, without the addresses. -/
structure UdpPacket where
  dest : ℕ
  src : ℕ
  data : List UInt8
  deriving DecidableEq

end Net
end EmevBsp
