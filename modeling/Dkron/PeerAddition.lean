import Dkron.RaftPeers

/-!
# Raft peer addition

What the Raft configuration is after `addRaftPeer` (`dkron/leader.go`) has handled a server. The
server can share its address with one entry of the configuration and its id with another. The loop
goes over the configuration as it was before the call, removes the entry with the address, and
leaves the one with the id to `AddVoter`, which gives it the new address.

**Theorem (`addRaftPeer_adds`).** The configuration has the server once by its id and once by its
address, and the servers with neither are the same as before.
-/

namespace Dkron

namespace RaftConfiguration

/-- In a list with different keys only one element has the key of another. -/
theorem filter_key_eq {α β : Type} [DecidableEq β] {key : α → β} {l : List α}
    (h : (l.map key).Nodup) {a : α} (ha : a ∈ l) : l.filter (fun b => key b = key a) = [a] := by
  induction l with
  | nil => cases ha
  | cons b l ih =>
    obtain ⟨hb, hl⟩ := List.nodup_cons.1 h
    rcases List.mem_cons.1 ha with rfl | ha
    · rw [List.filter_cons_of_pos (by simp), List.filter_eq_nil_iff.2]
      intro c hc heq
      exact hb (of_decide_eq_true heq ▸ List.mem_map_of_mem hc)
    · have hne : key b ≠ key a := fun heq => hb (heq ▸ List.mem_map_of_mem ha)
      rw [List.filter_cons_of_neg (by simpa using hne), ih hl ha]

theorem eq_of_address_of_id {s t : RaftServer} (haddr : s.address = t.address)
    (hid : s.id = t.id) : s = t := by
  cases s
  cases t
  rw [RaftServer.mk.injEq]
  exact ⟨hid, haddr⟩

theorem eq_of_id_eq {c : RaftConfiguration} {s t : RaftServer} (hs : s ∈ c.servers)
    (ht : t ∈ c.servers) (h : s.id = t.id) : s = t :=
  List.inj_on_of_nodup_map c.nodup hs ht h

theorem servers_removeServer (serverID : String) (c : RaftConfiguration) :
    (c.removeServer serverID).servers = c.servers.filter fun server => server.id ≠ serverID := by
  obtain ⟨servers, h⟩ := c
  show servers.eraseP (fun server => server.id = serverID) = _
  induction servers with
  | nil => rfl
  | cons server servers ih =>
    obtain ⟨hserver, hservers⟩ := List.nodup_cons.1 h
    by_cases heq : server.id = serverID
    · rw [List.eraseP_cons_of_pos (by simpa using heq),
        List.filter_cons_of_neg (by simpa using heq), List.filter_eq_self.2]
      intro other hother
      exact decide_eq_true fun h => hserver (heq.trans h.symm ▸ List.mem_map_of_mem hother)
    · rw [List.eraseP_cons_of_neg (by simpa using heq),
        List.filter_cons_of_pos (by simpa using heq), ih hservers]

/-- The server is in the configuration, and no other one has its id or its address. -/
structure HasPeer (c : RaftConfiguration) (peer : RaftServer) : Prop where
  mem : peer ∈ c.servers
  eq_of_address : ∀ server ∈ c.servers, server.address = peer.address → server.id = peer.id

/-- The servers that share neither id nor address with a peer. -/
def others (c : RaftConfiguration) (peer : RaftServer) : List RaftServer :=
  c.servers.filter fun server => server.id ≠ peer.id ∧ server.address ≠ peer.address

variable {c : RaftConfiguration} {peer : RaftServer}

theorem HasPeer.filter_id (h : c.HasPeer peer) :
    (c.servers.filter fun server => server.id = peer.id) = [peer] :=
  filter_key_eq c.nodup h.mem

theorem HasPeer.filter_address (h : c.HasPeer peer) :
    (c.servers.filter fun server => server.address = peer.address) = [peer] := by
  rw [← h.filter_id]
  apply List.filter_congr
  intro server hserver
  rw [decide_eq_decide]
  exact ⟨h.eq_of_address server hserver, fun hid => by rw [eq_of_id_eq hserver h.mem hid]⟩

/-- A peer whose address is free is in the configuration after `AddVoter`. -/
theorem hasPeer_addVoter (h : ∀ server ∈ c.servers, server.address ≠ peer.address) :
    (c.addVoter peer.id peer.address).HasPeer peer := by
  rw [addVoter]
  split_ifs with hid
  · obtain ⟨server, hserver, hserverID⟩ := List.mem_map.1 hid
    refine ⟨List.mem_map.2 ⟨server, hserver, ?_⟩, fun s hs haddr => ?_⟩
    · rw [setAddress, if_pos hserverID]
    · obtain ⟨t, ht, rfl⟩ := List.mem_map.1 hs
      rw [setAddress] at haddr ⊢
      split_ifs with htid
      · rfl
      · rw [if_neg htid] at haddr
        exact absurd haddr (h t ht)
  · refine ⟨List.mem_append_right _ (List.mem_singleton.2 rfl), fun s hs haddr => ?_⟩
    rcases List.mem_append.1 hs with hs | hs
    · exact absurd haddr (h s hs)
    · rw [List.mem_singleton.1 hs]

theorem others_addVoter : (c.addVoter peer.id peer.address).others peer = c.others peer := by
  rw [others, others, addVoter]
  split_ifs with hid
  · show ((c.servers.map (setAddress peer.id peer.address)).filter _) = _
    induction c.servers with
    | nil => rfl
    | cons server servers ih =>
      rw [List.map_cons, List.filter_cons, List.filter_cons, ih, setAddress]
      by_cases heq : server.id = peer.id <;> simp [heq]
  · simp [List.filter_append]

end RaftConfiguration

namespace RaftPeers

open RaftConfiguration

/-- The loop stops at the server itself, if no other one has its address. -/
theorem removeDuplicates_eq_self {peer : RaftServer} {servers : List RaftServer}
    (h : ∀ server ∈ servers, server.address = peer.address → server.id = peer.id)
    (c : RaftConfiguration) :
    removeDuplicates peer.id peer.address servers c = (c, decide (peer ∈ servers)) := by
  induction servers with
  | nil => rfl
  | cons server servers ih =>
    obtain ⟨hserver, hservers⟩ := List.forall_mem_cons.1 h
    by_cases haddr : server.address = peer.address
    · have heq : server = peer := eq_of_address_of_id haddr (hserver haddr)
      simp [removeDuplicates, heq]
    · have hne : peer ≠ server := fun heq => haddr (heq ▸ rfl)
      simp [removeDuplicates, haddr, hne, ih hservers]

/-- If the loop does not meet the server itself, it removes every server with the id of one that
has the address. -/
theorem servers_removeDuplicates {peer : RaftServer} {servers : List RaftServer}
    (h : peer ∉ servers) (c : RaftConfiguration) :
    (removeDuplicates peer.id peer.address servers c).2 = false ∧
      (removeDuplicates peer.id peer.address servers c).1.servers = c.servers.filter fun server =>
        ∀ t ∈ servers, t.address = peer.address → server.id ≠ t.id := by
  induction servers generalizing c with
  | nil => simp [removeDuplicates]
  | cons server servers ih =>
    obtain ⟨hserver, hservers⟩ := List.ne_and_not_mem_of_not_mem_cons h
    have hne : ¬(server.address = peer.address ∧ server.id = peer.id) :=
      fun heq => hserver (eq_of_address_of_id heq.1 heq.2).symm
    by_cases haddr : server.address = peer.address
    · rw [removeDuplicates, if_neg hne, if_pos haddr]
      refine ⟨(ih hservers _).1, ?_⟩
      rw [(ih hservers _).2, servers_removeServer, List.filter_filter]
      apply List.filter_congr
      intro s _
      simp [haddr, Bool.and_comm]
    · rw [removeDuplicates, if_neg hne, if_neg haddr]
      refine ⟨(ih hservers _).1, ?_⟩
      rw [(ih hservers _).2]
      apply List.filter_congr
      intro s _
      simp [haddr]

/-- The loop, when it does not meet the server itself, leaves the servers at other addresses. -/
theorem servers_removeDuplicates_self {peer : RaftServer} {c : RaftConfiguration}
    (h : peer ∉ c.servers) :
    (removeDuplicates peer.id peer.address c.servers c).1.servers =
      c.servers.filter fun server => server.address ≠ peer.address := by
  rw [(servers_removeDuplicates h c).2]
  apply List.filter_congr
  intro server hserver
  rw [decide_eq_decide]
  refine ⟨fun hkept haddr => hkept server hserver haddr rfl, fun haddr t ht htaddr heq => ?_⟩
  rw [eq_of_id_eq hserver ht heq] at haddr
  exact haddr htaddr

variable {parseIP : String → Option IP} {a : Agent} {members : List Serf.Member} {m : Serf.Member}
  {parts : ServerParts} {c : RaftConfiguration}

/-- **What adding a peer does.** -/
theorem hasPeer_addRaftPeer (hbootstrap : ¬(parts.bootstrap ∧ otherBootstrap parseIP members m))
    (hself : ¬(m.name = a.nodeName ∧ c.servers.length < 3))
    (haddresses : (c.servers.map RaftServer.address).Nodup) :
    (addRaftPeer parseIP a members m parts c).HasPeer ⟨parts.id, m.addr, parts.port⟩ ∧
      (addRaftPeer parseIP a members m parts c).others ⟨parts.id, m.addr, parts.port⟩ =
        c.others ⟨parts.id, m.addr, parts.port⟩ := by
  rw [addRaftPeer, if_neg hbootstrap, if_neg hself]
  generalize hpeer : (⟨parts.id, m.addr, parts.port⟩ : RaftServer) = peer
  have hid : parts.id = peer.id := by rw [← hpeer]
  have haddr : (⟨m.addr, parts.port⟩ : TCPAddr) = peer.address := by rw [← hpeer]
  simp only [hid, haddr]
  by_cases hmem : peer ∈ c.servers
  · have heq : ∀ server ∈ c.servers, server.address = peer.address → server.id = peer.id :=
      fun server hserver h => by rw [List.inj_on_of_nodup_map haddresses hserver hmem h]
    rw [removeDuplicates_eq_self heq, decide_eq_true hmem]
    exact ⟨⟨hmem, heq⟩, rfl⟩
  · have hfound := (servers_removeDuplicates hmem c).1
    have hservers := servers_removeDuplicates_self hmem
    cases hdup : removeDuplicates peer.id peer.address c.servers c with
    | mk c' found =>
      rw [hdup] at hfound hservers
      obtain rfl : found = false := hfound
      have hfree : ∀ server ∈ c'.servers, server.address ≠ peer.address := by
        intro server hserver
        rw [hservers] at hserver
        exact of_decide_eq_true (List.mem_filter.1 hserver).2
      refine ⟨hasPeer_addVoter hfree, others_addVoter.trans ?_⟩
      rw [others, hservers, List.filter_filter, others]
      apply List.filter_congr
      intro server _
      simp

/-! ## Different addresses -/

theorem mem_others {peer : RaftServer} {server : RaftServer} : server ∈ c.others peer ↔
    server ∈ c.servers ∧ server.id ≠ peer.id ∧ server.address ≠ peer.address := by
  simp [others]

/-- Different addresses stay different when a peer is added. -/
theorem nodup_addresses_addRaftPeer (h : (c.servers.map RaftServer.address).Nodup) :
    ((addRaftPeer parseIP a members m parts c).servers.map RaftServer.address).Nodup := by
  by_cases hbootstrap : parts.bootstrap ∧ otherBootstrap parseIP members m
  · rwa [addRaftPeer, if_pos hbootstrap]
  by_cases hself : m.name = a.nodeName ∧ c.servers.length < 3
  · rwa [addRaftPeer, if_neg hbootstrap, if_pos hself]
  obtain ⟨hpeer, hothers⟩ := hasPeer_addRaftPeer hbootstrap hself h
  generalize addRaftPeer parseIP a members m parts c = c' at hpeer hothers ⊢
  -- a server at another address than the peer's was there before
  have hold : ∀ s ∈ c'.servers, s.address ≠ (⟨m.addr, parts.port⟩ : TCPAddr) → s ∈ c.servers := by
    intro s hs haddr
    have hid : s.id ≠ parts.id := fun hid => haddr (by rw [eq_of_id_eq hs hpeer.mem hid])
    exact (mem_others.1 (hothers ▸ mem_others.2 ⟨hs, hid, haddr⟩)).1
  refine List.Nodup.map_on (fun s hs t ht heq => ?_) c'.nodup.of_map
  by_cases haddr : s.address = (⟨m.addr, parts.port⟩ : TCPAddr)
  · refine eq_of_id_eq hs ht ?_
    rw [hpeer.eq_of_address s hs haddr, hpeer.eq_of_address t ht (heq ▸ haddr)]
  · exact List.inj_on_of_nodup_map h (hold s hs haddr) (hold t ht (heq ▸ haddr)) heq

theorem nodup_addresses_reconcileMember {fold : Char → Char}
    (h : (c.servers.map RaftServer.address).Nodup) :
    ((reconcileMember parseIP fold a members m c).servers.map RaftServer.address).Nodup := by
  rw [reconcileMember]
  cases isServer parseIP m with
  | none => exact h
  | some parts =>
    show (List.map RaftServer.address (if parts.region ≠ a.region then c else _).servers).Nodup
    split_ifs
    · exact h
    · cases m.status with
      | alive => exact nodup_addresses_addRaftPeer h
      | left =>
        show ((removeRaftPeer fold a m parts c).servers.map RaftServer.address).Nodup
        rw [removeRaftPeer]
        split_ifs
        · exact h
        · exact h.sublist (List.eraseP_sublist.map RaftServer.address)
        · exact h
      | none | leaving | failed | reap => exact h

/-- Whatever members the leader handles, different addresses stay different. -/
theorem nodup_addresses_run {fold : Char → Char} (h : (c.servers.map RaftServer.address).Nodup)
    (events : List Event) :
    ((events.foldl (step parseIP fold a) ⟨c, [], []⟩).configuration.servers.map
      RaftServer.address).Nodup := by
  refine Runs.invariant_run (s := ⟨c, [], []⟩)
    (I := fun s : State => (s.configuration.servers.map RaftServer.address).Nodup)
    (fun s e hs => ?_) h events
  cases e with
  | memberEvent me room => exact hs
  | handle members =>
    rw [step]
    cases s.queue with
    | nil => exact hs
    | cons m queue => exact nodup_addresses_reconcileMember hs

end RaftPeers

open RaftPeers in
/-- **Raft peer addition.** In a configuration with different addresses, `addRaftPeer` of a server
that it does not skip leaves exactly one server with its id and exactly one with its address, the
same one, and the servers that had neither as they were. -/
theorem addRaftPeer_adds (parseIP : String → Option IP) (a : Agent) (members : List Serf.Member)
    (m : Serf.Member) (parts : ServerParts) (c : RaftConfiguration)
    (haddresses : (c.servers.map RaftServer.address).Nodup)
    (hbootstrap : ¬(parts.bootstrap ∧ otherBootstrap parseIP members m))
    (hself : ¬(m.name = a.nodeName ∧ c.servers.length < 3)) :
    let peer : RaftServer := ⟨parts.id, m.addr, parts.port⟩
    let c' := addRaftPeer parseIP a members m parts c
    (c'.servers.filter fun server => server.id = peer.id) = [peer] ∧
      (c'.servers.filter fun server => server.address = peer.address) = [peer] ∧
      (c'.servers.filter fun server => server.id ≠ peer.id ∧ server.address ≠ peer.address) =
        c.servers.filter fun server => server.id ≠ peer.id ∧ server.address ≠ peer.address := by
  obtain ⟨hpeer, hothers⟩ := hasPeer_addRaftPeer hbootstrap hself haddresses
  exact ⟨hpeer.filter_id, hpeer.filter_address, hothers⟩

namespace RaftPeers

/-- The server `c` comes back at the address of `a`, with `b` as the leader. -/
def movedC : Serf.Member :=
  ⟨"c", [10, 0, 0, 1], [("role", "dkron"), ("server", "true"), ("region", "global"),
    ("port", "6868")], .alive⟩

/-- Three voters at different addresses. -/
def threeVoters : RaftConfiguration :=
  ⟨[⟨"a", ⟨[10, 0, 0, 1], 6868⟩⟩, ⟨"b", ⟨[10, 0, 0, 2], 6868⟩⟩, ⟨"c", ⟨[10, 0, 0, 3], 6868⟩⟩],
    by decide⟩

/-- The address of one server and the id of another come together. -/
theorem movedC_added :
    let c' := addRaftPeer (fun _ => none) ⟨"b", "global", true, true, true⟩ [movedC] movedC
      (serverParts (fun _ => none) movedC 0 6868) threeVoters
    (c'.servers.filter fun server => server.id = "c") = [⟨"c", ⟨[10, 0, 0, 1], 6868⟩⟩] ∧
      (c'.servers.filter fun server => server.id ≠ "c" ∧ server.address ≠ ⟨[10, 0, 0, 1], 6868⟩) =
        [⟨"b", ⟨[10, 0, 0, 2], 6868⟩⟩] := by
  have h := addRaftPeer_adds (fun _ => none) ⟨"b", "global", true, true, true⟩ [movedC] movedC
    (serverParts (fun _ => none) movedC 0 6868) threeVoters (by decide) (by decide) (by decide)
  exact ⟨h.1, h.2.2⟩

end RaftPeers

end Dkron
