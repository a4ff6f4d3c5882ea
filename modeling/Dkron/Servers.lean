import Dkron.Proto
import Dkron.GoStrings

/-!
# Servers

The members of the gossip pool and `isServer` of `dkron/utils.go`, which reads from a member's tags
whether it is a server and what its parts are.

How the text of an address is read is left to `net.ParseIP`, a parameter here. The Raft protocol
number, which `isServer` does not set, and the build version, which nothing below reads, are left
out.
-/

namespace Dkron

/-- `net.IP`, in the form that `To4` gives if there is one, so that equal texts are equal
addresses. -/
abbrev IP := Bytes

/-- `net.TCPAddr`. -/
structure TCPAddr where
  ip : IP
  port : Int
deriving DecidableEq, Repr

/-- `raft.Server`, as a voter. -/
structure RaftServer where
  id : String
  address : TCPAddr
deriving DecidableEq, Repr

/-- `serf.MemberStatus`, and `StatusReap`, which is `MemberStatus(-1)`. -/
inductive Serf.MemberStatus where
  | none
  | alive
  | leaving
  | left
  | failed
  | reap
deriving DecidableEq, Repr

/-- `serf.Member`. -/
structure Serf.Member where
  name : String
  addr : IP
  tags : StrMap
  status : Serf.MemberStatus
deriving DecidableEq, Repr

/-- `ServerParts`. -/
structure ServerParts where
  name : String
  id : String
  region : String
  datacenter : String
  port : Int
  bootstrap : Bool
  expect : Int
  addr : TCPAddr
  rpcAddr : TCPAddr
  status : Serf.MemberStatus
deriving DecidableEq, Repr

/-- The number in the tag `expect`: zero without the tag, and none if it is not a number. -/
def expectTag (tags : StrMap) : Option Int :=
  match tags.lookup "expect" with
  | none => some 0
  | some expectStr => parseInt expectStr

variable (parseIP : String → Option IP)

/-- The parts of a member with the given numbers in the tags `expect` and `port`. -/
def serverParts (m : Serf.Member) (expect port : Int) : ServerParts where
  name := m.name
  id := m.name
  region := m.tags.at "region"
  datacenter := m.tags.at "dc"
  port := port
  -- a server that expects only itself bootstraps alone
  bootstrap := (m.tags.lookup "bootstrap").isSome || expect == 1
  expect := expect
  addr := ⟨m.addr, port⟩
  rpcAddr := ⟨(parseIP (m.tags.at "rpc_addr")).getD m.addr, port⟩
  status := m.status

/-- `isServer`. -/
def isServer (m : Serf.Member) : Option ServerParts :=
  if m.tags.at "role" ≠ "dkron" then none
  else if m.tags.at "server" ≠ "true" then none
  else
    match expectTag m.tags with
    | none => none
    | some expect =>
      match parseInt (m.tags.at "port") with
      | none => none
      | some port => some (serverParts parseIP m expect port)

variable {parseIP}

theorem exists_serverParts {m : Serf.Member} {p : ServerParts} (h : isServer parseIP m = some p) :
    ∃ expect port, p = serverParts parseIP m expect port := by
  simp only [isServer] at h
  split_ifs at h
  cases hexpect : expectTag m.tags with
  | none => simp [hexpect] at h
  | some expect =>
    cases hport : parseInt (m.tags.at "port") with
    | none => simp [hexpect, hport] at h
    | some port =>
      simp only [hexpect, hport, Option.some.injEq] at h
      exact ⟨expect, port, h.symm⟩

/-- A server is known to Raft by the name of its member. -/
theorem id_of_isServer {m : Serf.Member} {p : ServerParts} (h : isServer parseIP m = some p) :
    p.id = m.name := by
  obtain ⟨expect, port, rfl⟩ := exists_serverParts h
  rfl

end Dkron
