import Dkron.Lib.Indexes
import Dkron.Lib.InPlace
import Dkron.Lib.Runs
import Dkron.Servers

/-!
# Server tables

What an agent keeps of the servers it hears of: `ServerLookup` (`dkron/server_lookup.go`) finds a
server by its RPC address and by its id, `peers` has the servers of each region, and `localPeers`
those of the agent's own region by address. `nodeJoin`, `nodeFailed` and `lanNodeUpdate`
(`dkron/serf.go`) change them when members join, fail or are updated.

`nodeJoin` looks for a server it knows by name, but only among `peers`. In the other tables the
entries of a server that comes back at another address stay, and a server that takes over an address
hides the one that had it. `lanNodeUpdate` does not write `localPeers`.

Bootstrapping, which `nodeJoin` tries after each server, is in `Bootstrap`; it leaves the tables
alone.

**Theorem (`tables_consistent_iff`).** The tables are consistent in all states of a run if and only
if every server it is about still has the addresses it is known with.
-/

namespace Dkron

/-- `ServerLookup`. -/
structure ServerLookup where
  addressToServer : TCPAddr → Option ServerParts
  idToServer : String → Option ServerParts

/-- `AddServer`. -/
def ServerLookup.addServer (sl : ServerLookup) (server : ServerParts) : ServerLookup where
  addressToServer := Function.update sl.addressToServer server.rpcAddr (some server)
  idToServer := Function.update sl.idToServer server.id (some server)

/-- `RemoveServer`. -/
def ServerLookup.removeServer (sl : ServerLookup) (server : ServerParts) : ServerLookup where
  addressToServer := Function.update sl.addressToServer server.rpcAddr none
  idToServer := Function.update sl.idToServer server.id none

/-- The tables of the agent. -/
structure ServerTables where
  serverLookup : ServerLookup := ⟨fun _ => none, fun _ => none⟩
  peers : String → Option (List ServerParts) := fun _ => none
  localPeers : TCPAddr → Option ServerParts := fun _ => none

namespace ServerTables

/-- The servers of a region with a server that joins, in the place of one of its name. -/
def addPeer (parts : ServerParts) : List ServerParts → List ServerParts
  | [] => [parts]
  | e :: existing =>
    if e.name = parts.name then parts :: existing else e :: addPeer parts existing

/-- The servers of a region without the one of a name; the last one takes its place. -/
def removePeer (name : String) (existing : List ServerParts) : List ServerParts :=
  match existing.findIdx? fun e => e.name = name with
  | none => existing
  | some i => (InPlace.removeSwap existing i).getD existing

variable (parseIP : String → Option IP) (region : String)

/-- `nodeJoin`, for one member. -/
def joinMember (t : ServerTables) (m : Serf.Member) : ServerTables :=
  match isServer parseIP m with
  | none => t
  | some parts =>
    { serverLookup := t.serverLookup.addServer parts
      peers := Function.update t.peers parts.region
        (some (addPeer parts ((t.peers parts.region).getD [])))
      localPeers :=
        if parts.region = region then Function.update t.localPeers parts.addr (some parts)
        else t.localPeers }

/-- `nodeFailed`, for one member. -/
def failMember (t : ServerTables) (m : Serf.Member) : ServerTables :=
  match isServer parseIP m with
  | none => t
  | some parts =>
    let existing := removePeer parts.name ((t.peers parts.region).getD [])
    { serverLookup := t.serverLookup.removeServer parts
      peers := Function.update t.peers parts.region (if existing = [] then none else some existing)
      localPeers :=
        if parts.region = region then Function.update t.localPeers parts.addr none
        else t.localPeers }

/-- `lanNodeUpdate`, for one member. -/
def updateMember (t : ServerTables) (m : Serf.Member) : ServerTables :=
  match isServer parseIP m with
  | none => t
  | some parts => { t with serverLookup := t.serverLookup.addServer parts }

/-- `nodeJoin`. -/
def nodeJoin (members : List Serf.Member) (t : ServerTables) : ServerTables :=
  members.foldl (joinMember parseIP region) t

/-- `nodeFailed`. -/
def nodeFailed (members : List Serf.Member) (t : ServerTables) : ServerTables :=
  members.foldl (failMember parseIP region) t

/-- `lanNodeUpdate`. -/
def lanNodeUpdate (members : List Serf.Member) (t : ServerTables) : ServerTables :=
  members.foldl (updateMember parseIP) t

/-! ## Runs -/

/-- A member joins, is updated or fails. The members of an event come one after the other. -/
inductive Event where
  | join (m : Serf.Member)
  | update (m : Serf.Member)
  | fail (m : Serf.Member)

/-- What one member of an event does. -/
def step (t : ServerTables) : Event → ServerTables
  | .join m => joinMember parseIP region t m
  | .update m => updateMember parseIP t m
  | .fail m => failMember parseIP region t m

/-- A server that is known, by its id. -/
def Known (t : ServerTables) (p : ServerParts) : Prop := ∃ i, t.serverLookup.idToServer i = some p

/-- The tables by address and by id have the same servers, each once, and the local peers are at
the addresses of the known servers of the region. -/
structure Consistent (t : ServerTables) : Prop where
  same : ∀ p, (∃ a, t.serverLookup.addressToServer a = some p) ↔ t.Known p
  address : ∀ a p, t.serverLookup.addressToServer a = some p → p.rpcAddr = a
  id : ∀ i p, t.serverLookup.idToServer i = some p → p.id = i
  localPeers : ∀ a, t.localPeers a ≠ none ↔ ∃ p, t.Known p ∧ p.region = region ∧ p.addr = a

/-- The server is of the region and has the address. -/
def LocalAt (p : ServerParts) (a : TCPAddr) : Prop := p.region = region ∧ p.addr = a

/-- A known server of another id is of the region and has the address. -/
def OtherAt (t : ServerTables) (p : ServerParts) (a : TCPAddr) : Prop :=
  ∃ q, t.Known q ∧ q.id ≠ p.id ∧ LocalAt region q a

/-- The server is known, of the region and with the address. -/
def WasAt (t : ServerTables) (p : ServerParts) (a : TCPAddr) : Prop :=
  ∃ q, t.Known q ∧ q.id = p.id ∧ LocalAt region q a

/-- A server that is known with the id has the RPC address, and the other way round. -/
def SameRPCAddr (t : ServerTables) (p : ServerParts) : Prop :=
  (∀ q, t.serverLookup.addressToServer p.rpcAddr = some q → q.id = p.id) ∧
    ∀ q, t.serverLookup.idToServer p.id = some q → q.rpcAddr = p.rpcAddr

/-- The local address that the server is known with is its address, or another server's. -/
def AddrKept (t : ServerTables) (p : ServerParts) : Prop :=
  ∀ a, WasAt region t p a → LocalAt region p a ∨ OtherAt region t p a

/-- The event changes no address of a server. A server that is updated without having joined is of
another region, and a server that fails shares its address with no other. -/
def KeepsAddresses (t : ServerTables) : Event → Prop
  | .join m => ∀ p, isServer parseIP m = some p → SameRPCAddr t p ∧ AddrKept region t p
  | .update m => ∀ p, isServer parseIP m = some p → SameRPCAddr t p ∧ AddrKept region t p ∧
      ∀ a, LocalAt region p a → WasAt region t p a ∨ OtherAt region t p a
  | .fail m => ∀ p, isServer parseIP m = some p → SameRPCAddr t p ∧ AddrKept region t p ∧
      ∀ a, LocalAt region p a → ¬OtherAt region t p a

/-! ## The tables as indexes -/

/-- The servers by address and by id. -/
def indexes (t : ServerTables) : Indexes ServerParts TCPAddr String :=
  ⟨t.serverLookup.addressToServer, t.serverLookup.idToServer⟩

/-- The local peers are at the addresses of the known servers of the region. -/
def PeersCurrent (t : ServerTables) : Prop :=
  ∀ a, t.localPeers a ≠ none ↔ ∃ p, t.Known p ∧ LocalAt region p a

variable {parseIP region} {t : ServerTables} {p : ServerParts}

theorem consistent_iff : Consistent region t ↔
    t.indexes.Agree ServerParts.rpcAddr ServerParts.id ∧ PeersCurrent region t :=
  ⟨fun h => ⟨⟨h.same, h.address, h.id⟩, h.localPeers⟩, fun h => ⟨h.1.1, h.1.2, h.1.3, h.2⟩⟩

theorem sameRPCAddr_iff :
    SameRPCAddr t p ↔ t.indexes.Fits ServerParts.rpcAddr ServerParts.id p :=
  ⟨fun h => ⟨h.1, h.2⟩, fun h => ⟨h.1, h.2⟩⟩

/-- What is known after the entry under an id is written. -/
theorem exists_update_iff (hid : ∀ i q, t.serverLookup.idToServer i = some q → q.id = i)
    {x : Option ServerParts} {q : ServerParts} :
    (∃ i, Function.update t.serverLookup.idToServer p.id x i = some q) ↔
      x = some q ∨ t.Known q ∧ q.id ≠ p.id := by
  constructor
  · intro ⟨i, hi⟩
    by_cases h : i = p.id
    · rw [h, Function.update_self] at hi
      exact .inl hi
    · rw [Function.update_of_ne h] at hi
      exact .inr ⟨⟨i, hi⟩, (hid i q hi).trans_ne h⟩
  · intro h
    rcases h with h | ⟨⟨i, hi⟩, hne⟩
    · exact ⟨p.id, by rw [Function.update_self, h]⟩
    · exact ⟨i, by rw [Function.update_of_ne (hid i q hi ▸ hne), hi]⟩

/-- The local addresses of the known servers, by whether they are of the given one. -/
theorem exists_known_iff {a : TCPAddr} :
    (∃ q, t.Known q ∧ LocalAt region q a) ↔ WasAt region t p a ∨ OtherAt region t p a := by
  constructor
  · intro ⟨q, hq, ha⟩
    by_cases h : q.id = p.id
    · exact .inl ⟨q, hq, h, ha⟩
    · exact .inr ⟨q, hq, h, ha⟩
  · intro h
    rcases h with ⟨q, hq, -, ha⟩ | ⟨q, hq, -, ha⟩ <;> exact ⟨q, hq, ha⟩

/-! ## One server -/

/-- The tables by address and by id after a server was put into them. -/
theorem exists_known_addServer (h : Consistent region t) {t' : ServerTables}
    (ht' : t'.serverLookup = t.serverLookup.addServer p) {a : TCPAddr} :
    (∃ q, t'.Known q ∧ LocalAt region q a) ↔ LocalAt region p a ∨ OtherAt region t p a := by
  have hknown : ∀ q, t'.Known q ↔ some p = some q ∨ t.Known q ∧ q.id ≠ p.id := by
    intro q
    rw [Known, ht']
    exact exists_update_iff h.id
  constructor
  · intro ⟨q, hq, ha⟩
    rcases (hknown q).1 hq with hq | ⟨hq, hne⟩
    · rw [Option.some.inj hq]
      exact .inl ha
    · exact .inr ⟨q, hq, hne, ha⟩
  · intro ha
    rcases ha with ha | ⟨q, hq, hne, ha⟩
    · exact ⟨p, (hknown p).2 (.inl rfl), ha⟩
    · exact ⟨q, (hknown q).2 (.inr ⟨hq, hne⟩), ha⟩

theorem exists_known_removeServer (h : Consistent region t) {t' : ServerTables}
    (ht' : t'.serverLookup = t.serverLookup.removeServer p) {a : TCPAddr} :
    (∃ q, t'.Known q ∧ LocalAt region q a) ↔ OtherAt region t p a := by
  have hknown : ∀ q, t'.Known q ↔ none = some q ∨ t.Known q ∧ q.id ≠ p.id := by
    intro q
    rw [Known, ht']
    exact exists_update_iff h.id
  constructor
  · intro ⟨q, hq, ha⟩
    rcases (hknown q).1 hq with hq | ⟨hq, hne⟩
    · cases hq
    · exact ⟨q, hq, hne, ha⟩
  · intro ⟨q, hq, hne, ha⟩
    exact ⟨q, (hknown q).2 (.inr ⟨hq, hne⟩), ha⟩

/-- The keys of a map after one of them is written, or not. -/
theorem update_ne_none_iff {f : TCPAddr → Option ServerParts} {P : Prop} [Decidable P]
    {a b : TCPAddr} {x : Option ServerParts} :
    (if P then Function.update f b x else f) a ≠ none ↔
      (P ∧ b = a ∧ x ≠ none) ∨ ¬(P ∧ b = a) ∧ f a ≠ none := by
  by_cases hP : P
  · by_cases hab : b = a
    · simp [hP, hab]
    · rw [if_pos hP, Function.update_of_ne (Ne.symm hab)]
      simp [hab]
  · simp [hP]

theorem Consistent.localPeers_iff (h : Consistent region t) (p : ServerParts) (a : TCPAddr) :
    t.localPeers a ≠ none ↔ WasAt region t p a ∨ OtherAt region t p a :=
  (h.localPeers a).trans exists_known_iff

theorem consistent_joinMember_iff {m : Serf.Member} (hp : isServer parseIP m = some p)
    (h : Consistent region t) : Consistent region (joinMember parseIP region t m) ↔
      SameRPCAddr t p ∧ AddrKept region t p := by
  have heq : (joinMember parseIP region t m).serverLookup = t.serverLookup.addServer p := by
    rw [joinMember, hp]
  have hpeers : (joinMember parseIP region t m).localPeers =
      if p.region = region then Function.update t.localPeers p.addr (some p)
      else t.localPeers := by
    rw [joinMember, hp]
  have hagree : (joinMember parseIP region t m).indexes.Agree ServerParts.rpcAddr ServerParts.id ↔
      SameRPCAddr t p := by
    rw [sameRPCAddr_iff, indexes, heq]
    exact Indexes.agree_insert_iff (consistent_iff.1 h).1
  rw [consistent_iff, hagree]
  refine and_congr_right fun _ => forall_congr' fun a => ?_
  rw [hpeers, update_ne_none_iff, exists_known_addServer h heq, h.localPeers_iff p, LocalAt]
  simp only [ne_eq, reduceCtorEq, not_false_eq_true, and_true]
  tauto

theorem consistent_updateMember_iff {m : Serf.Member} (hp : isServer parseIP m = some p)
    (h : Consistent region t) : Consistent region (updateMember parseIP t m) ↔
      SameRPCAddr t p ∧ AddrKept region t p ∧
        ∀ a, LocalAt region p a → WasAt region t p a ∨ OtherAt region t p a := by
  have heq : (updateMember parseIP t m).serverLookup = t.serverLookup.addServer p := by
    rw [updateMember, hp]
  have hpeers : (updateMember parseIP t m).localPeers = t.localPeers := by rw [updateMember, hp]
  have hagree : (updateMember parseIP t m).indexes.Agree ServerParts.rpcAddr ServerParts.id ↔
      SameRPCAddr t p := by
    rw [sameRPCAddr_iff, indexes, heq]
    exact Indexes.agree_insert_iff (consistent_iff.1 h).1
  rw [consistent_iff, hagree, AddrKept, ← forall_and]
  refine and_congr_right fun _ => forall_congr' fun a => ?_
  rw [hpeers, exists_known_addServer h heq, h.localPeers_iff p]
  tauto

theorem consistent_failMember_iff {m : Serf.Member} (hp : isServer parseIP m = some p)
    (h : Consistent region t) : Consistent region (failMember parseIP region t m) ↔
      SameRPCAddr t p ∧ AddrKept region t p ∧
        ∀ a, LocalAt region p a → ¬OtherAt region t p a := by
  have heq : (failMember parseIP region t m).serverLookup = t.serverLookup.removeServer p := by
    rw [failMember, hp]
  have hpeers : (failMember parseIP region t m).localPeers =
      if p.region = region then Function.update t.localPeers p.addr none
      else t.localPeers := by
    rw [failMember, hp]
  have hagree : (failMember parseIP region t m).indexes.Agree ServerParts.rpcAddr ServerParts.id ↔
      SameRPCAddr t p := by
    rw [sameRPCAddr_iff, indexes, heq]
    exact Indexes.agree_erase_iff (consistent_iff.1 h).1
  rw [consistent_iff, hagree, AddrKept, ← forall_and]
  refine and_congr_right fun _ => forall_congr' fun a => ?_
  rw [hpeers, update_ne_none_iff, exists_known_removeServer h heq, h.localPeers_iff p, LocalAt]
  simp only [ne_eq, not_true_eq_false, and_false, false_or]
  tauto

/-- **The step.** The tables stay consistent if and only if the event keeps the addresses. -/
theorem consistent_step_iff (t : ServerTables) (e : Event) (h : Consistent region t) :
    Consistent region (step parseIP region t e) ↔ KeepsAddresses parseIP region t e := by
  cases e with
  | join m =>
    rw [step, KeepsAddresses]
    cases hp : isServer parseIP m with
    | none => simpa [joinMember, hp] using h
    | some p => simpa using consistent_joinMember_iff hp h
  | update m =>
    rw [step, KeepsAddresses]
    cases hp : isServer parseIP m with
    | none => simpa [updateMember, hp] using h
    | some p => simpa using consistent_updateMember_iff hp h
  | fail m =>
    rw [step, KeepsAddresses]
    cases hp : isServer parseIP m with
    | none => simpa [failMember, hp] using h
    | some p => simpa using consistent_failMember_iff hp h

theorem consistent_empty : Consistent region {} where
  same p := by simp [Known]
  address a p h := by cases h
  id i p h := by cases h
  localPeers a := by simp [Known]

/-- The members of an event come one after the other. -/
theorem nodeJoin_eq_run (members : List Serf.Member) (t : ServerTables) :
    nodeJoin parseIP region members t = (members.map Event.join).foldl (step parseIP region) t := by
  rw [List.foldl_map]
  rfl

theorem nodeFailed_eq_run (members : List Serf.Member) (t : ServerTables) :
    nodeFailed parseIP region members t =
      (members.map Event.fail).foldl (step parseIP region) t := by
  rw [List.foldl_map]
  rfl

theorem lanNodeUpdate_eq_run (members : List Serf.Member) (t : ServerTables) :
    lanNodeUpdate parseIP members t = (members.map Event.update).foldl (step parseIP region) t := by
  rw [List.foldl_map]
  rfl

end ServerTables

open ServerTables

/-- **When the server tables are consistent.** In all states of a run that starts with empty tables
they are, if and only if no event changes an address: a server that is known keeps its RPC address
and, in the agent's region, its address (unless another known server of the region has it); its RPC
address is no other server's; one that is updated is at a known address; and one that fails does not
share its address. -/
theorem tables_consistent_iff (parseIP : String → Option IP) (region : String)
    (events : List ServerTables.Event) :
    Runs.Everywhere (step parseIP region) (Consistent region) {} events ↔
      Runs.Along (step parseIP region) (KeepsAddresses parseIP region) {} events :=
  Runs.everywhere_iff_along (J := fun _ => True) (fun _ _ _ => trivial)
    (fun t e _ h => consistent_step_iff t e h) trivial consistent_empty

namespace ServerTables

/-- The server `a` of the region `global`, with its RPC server at the given port. -/
def serverAt (port : String) : Serf.Member :=
  ⟨"a", [10, 0, 0, 1], [("role", "dkron"), ("server", "true"), ("region", "global"),
    ("port", port)], .alive⟩

/-- A server that comes back at another port is found at both. -/
theorem moved_server_stays :
    ¬Runs.Everywhere (step (fun _ => none) "global") (Consistent "global") {}
      [.join (serverAt "6868"), .update (serverAt "6869")] := by
  intro h
  have hlast := h.last
  obtain ⟨i, hi⟩ := (hlast.same (serverParts (fun _ => none) (serverAt "6868") 0 6868)).1
    ⟨⟨[10, 0, 0, 1], 6868⟩, by decide⟩
  obtain rfl : "a" = i := hlast.id i _ hi
  exact absurd hi (by decide)

end ServerTables

end Dkron
