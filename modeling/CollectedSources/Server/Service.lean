import CollectedSources.Machine.Descriptors
import CollectedSources.Machine.Run
import Mathlib

/-! # The letter server

The server starts a thread for each connection, which writes ten letters and
closes. The client threads connect, read letter by letter until the end of the
file, and count. Descriptors are used again on both sides, and all threads share
those of their process. A client thread without a connection ends its process.
-/

namespace CollectedSources.Server

open Machine

section Code

/-- A connection: what the server wrote, how much of it the client read, and which ends are
closed. -/
structure Conn where
  accepted : Bool
  data : List Char
  position : ℕ
  shut : Bool
  left : Bool
  deriving DecidableEq, Repr

/-- The main thread of the server: in `accept`, with a new connection, or over. -/
inductive Main
  | accept
  | create (a : ℕ)
  | ended
  deriving DecidableEq, Repr

/-- A `child` of the server. -/
structure Thread where
  fd : ℕ
  a : ℕ
  deriving DecidableEq, Repr

inductive Output
  | putchar (ch : Char)
  | warn (r : ℤ)
  | printf (a : UInt32)
  deriving DecidableEq, Repr

/-- The counter of a client thread, and what it printed. -/
structure Record where
  a : UInt32
  output : List Output
  deriving DecidableEq, Repr

/-- The next call of a `child` of the client. -/
inductive Phase
  | connect
  | read (fd : ℕ)
  | close (fd : ℕ)
  deriving DecidableEq, Repr

structure Client where
  phase : Phase
  record : Record
  deriving DecidableEq, Repr

/-- Both processes: the descriptors lead to the connections by their numbers. The client is over
once it has exited. -/
structure State where
  main : Main
  threads : ℕ → Option Thread
  serverFds : ℕ → Option ℕ
  clients : ℕ → Client
  clientFds : ℕ → Option ℕ
  exited : Bool
  conns : ℕ → Option Conn

/-- The standard files and the socket that listens. -/
def other : ℕ := 0

def startFds : ℕ → Option ℕ := fun fd => if fd < 4 then some other else none

def init : State where
  main := .accept
  threads _ := none
  serverFds := startFds
  clients _ := ⟨.connect, ⟨0, []⟩⟩
  clientFds := startFds
  exited := false
  conns _ := none

/-- `if (!(a++ % 100)) putchar(ch)`. -/
def Record.take (r : Record) (ch : Char) : Record :=
  ⟨r.a + 1, r.output ++ if r.a % 100 = 0 then [.putchar ch] else []⟩

/-- `if (!(a % 1000)) printf("%u\n", a)`. -/
def Record.report (r : Record) : Record :=
  { r with output := r.output ++ if r.a % 1000 = 0 then [.printf r.a] else [] }

/-- What threads and the network may do next. The kernel chooses the descriptors. -/
inductive Action
  | connect (j c fd : ℕ)
  | connectFailed (j : ℕ)
  | accept (c fd : ℕ)
  | acceptFailed
  | create (i : ℕ)
  | createFailed
  | write (i : ℕ)
  | close (i : ℕ)
  | read (j : ℕ)
  | leave (j : ℕ)
  deriving DecidableEq, Repr

variable (s : State)

def State.updateConn (c : ℕ) (f : Conn → Conn) : State :=
  { s with conns := Function.update s.conns c ((s.conns c).map f) }

/-- `write(fd, "a", 1)`; a connection that the client has left refuses the letter. -/
def State.write (fd : ℕ) : State :=
  match s.serverFds fd with
  | none => s
  | some c => s.updateConn c fun k => if k.left then k else { k with data := k.data ++ ['a'] }

/-- `close(fd)` in the server. -/
def State.closeServer (fd : ℕ) : State :=
  match s.serverFds fd with
  | none => s
  | some c =>
    { s.updateConn c fun k => { k with shut := true } with
      serverFds := Function.update s.serverFds fd none }

/-- `close(fd)` in the client. -/
def State.closeClient (fd : ℕ) : State :=
  match s.clientFds fd with
  | none => s
  | some c =>
    { s.updateConn c fun k => { k with left := true } with
      clientFds := Function.update s.clientFds fd none }

def State.setClient (j : ℕ) (x : Client) : State :=
  { s with clients := Function.update s.clients j x }

def State.setThread (i : ℕ) (t : Option Thread) : State :=
  { s with threads := Function.update s.threads i t }

@[simp] theorem updateConn_conns (c : ℕ) (f : Conn → Conn) :
    (s.updateConn c f).conns = Function.update s.conns c ((s.conns c).map f) := rfl

@[simp] theorem setClient_clients (j : ℕ) (x : Client) :
    (s.setClient j x).clients = Function.update s.clients j x := rfl

@[simp] theorem setThread_threads (i : ℕ) (t : Option Thread) :
    (s.setThread i t).threads = Function.update s.threads i t := rfl

theorem write_eq {fd c : ℕ} (h : s.serverFds fd = some c) : s.write fd =
    s.updateConn c fun k => if k.left then k else { k with data := k.data ++ ['a'] } := by
  rw [State.write, h]

theorem closeServer_eq {fd c : ℕ} (h : s.serverFds fd = some c) : s.closeServer fd =
    { s.updateConn c fun k => { k with shut := true } with
      serverFds := Function.update s.serverFds fd none } := by
  rw [State.closeServer, h]

theorem closeClient_eq {fd c : ℕ} (h : s.clientFds fd = some c) : s.closeClient fd =
    { s.updateConn c fun k => { k with left := true } with
      clientFds := Function.update s.clientFds fd none } := by
  rw [State.closeClient, h]

/-- `read(fd, &ch, 1)` of a client thread. It waits if there is nothing to read yet. -/
def State.read (j fd : ℕ) : Option State :=
  let x := s.clients j
  match s.clientFds fd with
  | none =>
    some (s.setClient j ⟨.close fd, { x.record with output := x.record.output ++ [.warn (-1)] }⟩)
  | some c =>
    match s.conns c with
    | none => none
    | some k =>
      match k.data[k.position]? with
      | some ch =>
        some ((s.updateConn c fun k => { k with position := k.position + 1 }).setClient j
          ⟨.read fd, x.record.take ch⟩)
      | none => if k.shut then some (s.setClient j ⟨.close fd, x.record⟩) else none

/-- What a running client and the server do; none if it cannot be done now. When the server is over,
so is the run. -/
def act (s : State) : Action → Option State
  | .connect j c fd =>
    if s.main ≠ .ended ∧ (s.clients j).phase = .connect ∧ c ≠ other ∧ s.conns c = none ∧
        s.clientFds fd = none then
      some ({ s with
        conns := Function.update s.conns c (some ⟨false, [], 0, false, false⟩)
        clientFds := Function.update s.clientFds fd (some c) }.setClient j
          ⟨.read fd, (s.clients j).record⟩)
    else none
  -- `err` after `socket` or `connect`
  | .connectFailed j =>
    if s.main ≠ .ended ∧ (s.clients j).phase = .connect then some { s with exited := true }
    else none
  | .accept c fd =>
    if s.main = .accept ∧ ((s.conns c).map Conn.accepted) = some false ∧ s.serverFds fd = none then
      some { s.updateConn c fun k => { k with accepted := true } with
        main := .create fd
        serverFds := Function.update s.serverFds fd (some c) }
    else none
  | .acceptFailed => if s.main = .accept then some { s with main := .ended } else none
  | .create i =>
    match s.main with
    | .create a =>
      if s.threads i = none then some ({ s with main := .accept }.setThread i (some ⟨a, 0⟩))
      else none
    | _ => none
  | .createFailed =>
    match s.main with
    | .create a => some { s.closeServer a with main := .ended }
    | _ => none
  | .write i =>
    if s.main = .ended then none
    else match s.threads i with
      | some t =>
        if t.a < 10 then some ((s.write t.fd).setThread i (some { t with a := t.a + 1 })) else none
      | none => none
  | .close i =>
    if s.main = .ended then none
    else match s.threads i with
      | some t => if t.a < 10 then none else some ((s.closeServer t.fd).setThread i none)
      | none => none
  | .read j =>
    if s.main = .ended then none
    else match (s.clients j).phase with
      | .read fd => s.read j fd
      | _ => none
  | .leave j =>
    if s.main = .ended then none
    else match (s.clients j).phase with
      | .close fd =>
        some ((s.closeClient fd).setClient j ⟨.connect, (s.clients j).record.report⟩)
      | _ => none

/-- A step of the two processes. When the client is over, so is the run. -/
def step (s : State) (a : Action) : Option State := if s.exited then none else act s a

/-- The call of the next `write`, `close` or `read` of the action would fail. -/
def Fails (s : State) : Action → Prop
  | .write i => ∃ t, s.threads i = some t ∧ ∀ c k, s.serverFds t.fd = some c →
      s.conns c = some k → k.left = true
  | .close i => ∃ t, s.threads i = some t ∧ s.serverFds t.fd = none
  | .read j => ∃ fd, (s.clients j).phase = .read fd ∧ s.clientFds fd = none
  | .leave j => ∃ fd, (s.clients j).phase = .close fd ∧ s.clientFds fd = none
  | _ => False

end Code

/-- What a client thread does in one connection, if it is the only one. -/
def Record.session (r : Record) : Record := ((Record.take · 'a')^[10] r).report

/-- A client thread after `m` connections, with `n` letters read of the next one. -/
def record (m n : ℕ) : Record := (Record.take · 'a')^[n] (Record.session^[m] ⟨0, []⟩)

section Invariant

/-- What is known of a connection, by how far both ends are. -/
structure Conn.Good (k : Conn) : Prop where
  letters : ∃ n ≤ 10, k.data = List.replicate n 'a'
  position_le : k.position ≤ k.data.length
  data_of_shut : k.shut → k.data = List.replicate 10 'a'
  shut_of_left : k.left → k.shut
  pending : k.accepted = false → k.data = [] ∧ k.shut = false

namespace Conn.Good

variable {k : Conn} {n : ℕ}

theorem opened : Conn.Good ⟨false, [], 0, false, false⟩ :=
  ⟨⟨0, Nat.zero_le _, rfl⟩, le_rfl, nofun, nofun, fun _ => ⟨rfl, rfl⟩⟩

theorem accept (h : k.Good) : Conn.Good { k with accepted := true } :=
  ⟨h.letters, h.position_le, h.data_of_shut, h.shut_of_left, nofun⟩

theorem write (h : k.Good) (haccepted : k.accepted = true) (hshut : k.shut = false) (hn : n < 10)
    (hdata : k.data = List.replicate n 'a') : Conn.Good { k with data := k.data ++ ['a'] } where
  letters := ⟨n + 1, hn, by rw [hdata, List.replicate_succ']⟩
  position_le := h.position_le.trans (by simp)
  data_of_shut hs := by simp [hshut] at hs
  shut_of_left := h.shut_of_left
  pending ha := by simp [haccepted] at ha

theorem close (h : k.Good) (haccepted : k.accepted = true)
    (hdata : k.data = List.replicate 10 'a') : Conn.Good { k with shut := true } where
  letters := h.letters
  position_le := h.position_le
  data_of_shut _ := hdata
  shut_of_left _ := rfl
  pending ha := by simp [haccepted] at ha

theorem read (h : k.Good) (hlt : k.position < k.data.length) :
    Conn.Good { k with position := k.position + 1 } :=
  ⟨h.letters, hlt, h.data_of_shut, h.shut_of_left, h.pending⟩

theorem leave (h : k.Good) (hshut : k.shut = true) : Conn.Good { k with left := true } :=
  ⟨h.letters, h.position_le, h.data_of_shut, fun _ => hshut, h.pending⟩

end Conn.Good

/-- The descriptor of the main thread or a thread of the server, and how many letters it wrote. -/
def State.serving (s : State) : Option ℕ → Option (ℕ × ℕ)
  | none => match s.main with
    | .create a => some (a, 0)
    | _ => none
  | some i => (s.threads i).map fun t => (t.fd, t.a)

theorem serving_setThread (s : State) (i : ℕ) (t : Option Thread) :
    (s.setThread i t).serving (some i) = t.map fun t => (t.fd, t.a) := by
  simp only [State.serving, setThread_threads, Function.update_self]

theorem serving_setThread_of_ne (s : State) {i : ℕ} (t : Option Thread) {o : Option ℕ}
    (hne : o ≠ some i) : (s.setThread i t).serving o = s.serving o := by
  rcases o with _ | i'
  · rfl
  · have hi : i' ≠ i := fun heq => hne (heq ▸ rfl)
    simp only [State.serving, setThread_threads, Function.update_of_ne hi]

/-- An accepted connection has got the letters. -/
def Serves (conns : ℕ → Option Conn) (n c : ℕ) : Prop :=
  n ≤ 10 ∧ ∃ k, conns c = some k ∧ k.accepted = true ∧ k.shut = false ∧
    k.data = List.replicate n 'a'

/-- A client thread has counted and printed what it read, and holds its connection. -/
inductive Follows (conns : ℕ → Option Conn) : Client → Option (ℕ × ℕ) → Prop
  | connect {r : Record} (m : ℕ) (hr : r = record m 0) : Follows conns ⟨.connect, r⟩ none
  | read {fd c : ℕ} {k : Conn} {r : Record} (m : ℕ) (hk : conns c = some k) (hleft : k.left = false)
    (hr : r = record m k.position) : Follows conns ⟨.read fd, r⟩ (some (fd, c))
  | close {fd c : ℕ} {k : Conn} {r : Record} (m : ℕ) (hk : conns c = some k)
    (hleft : k.left = false) (hshut : k.shut = true) (hr : r = record m 10) :
    Follows conns ⟨.close fd, r⟩ (some (fd, c))

/-- The invariant, with the connections that the threads hold. -/
structure Inv (s : State) (served : Option ℕ → Option (ℕ × ℕ)) (used : ℕ → Option (ℕ × ℕ)) :
    Prop where
  server : Owns s.serverFds served
  client : Owns s.clientFds used
  serving : ∀ o, Tied (Serves s.conns) (s.serving o) (served o)
  reading : ∀ j, Follows s.conns (s.clients j) (used j)
  good : ∀ c k, s.conns c = some k → k.Good
  reserved : s.conns other = none ∧ ∀ fd < 4, s.serverFds fd = some other

variable {conns : ℕ → Option Conn} {c n : ℕ} {x : Option Conn} {k : Conn}
  {f : Conn → Conn} {y : Client} {q : Option (ℕ × ℕ)}

theorem Serves.update_of_ne (h : Serves conns n c) {c' : ℕ} (hne : c ≠ c') :
    Serves (Function.update conns c' x) n c := by
  unfold Serves
  rwa [Function.update_of_ne hne]

theorem Serves.update (h : Serves conns n c) (c' : ℕ)
    (hf : ∀ k, (f k).accepted = k.accepted ∧ (f k).shut = k.shut ∧ (f k).data = k.data) :
    Serves (Function.update conns c' ((conns c').map f)) n c := by
  rcases eq_or_ne c c' with rfl | hne
  · obtain ⟨hn, k, hk, haccepted, hshut, hdata⟩ := h
    obtain ⟨h₁, h₂, h₃⟩ := hf k
    refine ⟨hn, f k, ?_, h₁.trans haccepted, h₂.trans hshut, h₃.trans hdata⟩
    rw [Function.update_self, hk, Option.map_some]
  · exact h.update_of_ne hne

theorem Follows.of_connect (h : Follows conns y q) (hy : y.phase = .connect) :
    ∃ m, y.record = record m 0 := by
  cases h with
  | connect m hr => exact ⟨m, hr⟩
  | read => cases hy
  | close => cases hy

theorem Follows.of_read (h : Follows conns y q) {fd : ℕ} (hy : y.phase = .read fd) :
    ∃ c k m, q = some (fd, c) ∧ conns c = some k ∧ k.left = false ∧
      y.record = record m k.position := by
  cases h with
  | connect => cases hy
  | read m hk hleft hr =>
    cases hy
    exact ⟨_, _, m, rfl, hk, hleft, hr⟩
  | close => cases hy

theorem Follows.of_close (h : Follows conns y q) {fd : ℕ} (hy : y.phase = .close fd) :
    ∃ c k m, q = some (fd, c) ∧ conns c = some k ∧ k.left = false ∧ k.shut = true ∧
      y.record = record m 10 := by
  cases h with
  | connect => cases hy
  | read => cases hy
  | close m hk hleft hshut hr =>
    cases hy
    exact ⟨_, _, m, rfl, hk, hleft, hshut, hr⟩

theorem Follows.exists_conn {fd : ℕ} (h : Follows conns y (some (fd, c))) :
    ∃ k, conns c = some k := by
  cases h with
  | read m hk => exact ⟨_, hk⟩
  | close m hk => exact ⟨_, hk⟩

theorem Follows.update_of_ne (h : Follows conns y q) {c' : ℕ} (hne : ∀ fd, q ≠ some (fd, c')) :
    Follows (Function.update conns c' x) y q := by
  cases h with
  | connect m hr => exact .connect m hr
  | read m hk hleft hr =>
    refine .read m ?_ hleft hr
    rwa [Function.update_of_ne (by rintro rfl; exact hne _ rfl)]
  | close m hk hleft hshut hr =>
    refine .close m ?_ hleft hshut hr
    rwa [Function.update_of_ne (by rintro rfl; exact hne _ rfl)]

theorem Follows.update (h : Follows conns y q) (c' : ℕ)
    (hf : ∀ k, (f k).left = k.left ∧ (f k).position = k.position ∧ (k.shut → (f k).shut)) :
    Follows (Function.update conns c' ((conns c').map f)) y q := by
  have hupdate : ∀ {c k}, conns c = some k →
      ∃ k', Function.update conns c' ((conns c').map f) c = some k' ∧ k'.left = k.left ∧
        k'.position = k.position ∧ (k.shut → k'.shut) := by
    intro c k hk
    rcases eq_or_ne c c' with rfl | hne
    · rw [Function.update_self, hk]
      exact ⟨f k, rfl, hf k⟩
    · rw [Function.update_of_ne hne]
      exact ⟨k, hk, rfl, rfl, id⟩
  cases h with
  | connect m hr => exact .connect m hr
  | read m hk hleft hr =>
    obtain ⟨k', hk', hleft', hposition, -⟩ := hupdate hk
    exact .read m hk' (hleft'.trans hleft) (hposition ▸ hr)
  | close m hk hleft hshut hr =>
    obtain ⟨k', hk', hleft', -, hshut'⟩ := hupdate hk
    exact .close m hk' (hleft'.trans hleft) (hshut' hshut) hr

theorem follows_update {clients : ℕ → Client} {used : ℕ → Option (ℕ × ℕ)} {j : ℕ}
    (hj : Follows conns y q) (hother : ∀ j' ≠ j, Follows conns (clients j') (used j')) (j' : ℕ) :
    Follows conns (Function.update clients j y j') (Function.update used j q j') := by
  rcases eq_or_ne j' j with rfl | hne
  · rwa [Function.update_self, Function.update_self]
  · rw [Function.update_of_ne hne, Function.update_of_ne hne]
    exact hother j' hne

theorem good_update (h : ∀ c k, conns c = some k → k.Good) (hx : ∀ k, x = some k → k.Good)
    (c' : ℕ) : ∀ c k, Function.update conns c' x c = some k → k.Good := by
  intro c k hk
  rcases eq_or_ne c c' with rfl | hne
  · rw [Function.update_self] at hk
    exact hx k hk
  · rw [Function.update_of_ne hne] at hk
    exact h c k hk

end Invariant

section Steps

variable {s s' : State} {served : Option ℕ → Option (ℕ × ℕ)} {used : ℕ → Option (ℕ × ℕ)}
  {i j c fd : ℕ}

theorem inv_init : Inv init (fun _ => none) (fun _ => none) where
  server := owns_none _
  client := owns_none _
  serving o := by
    cases o <;> exact .none
  reading j := .connect 0 rfl
  good c k hk := by cases hk
  reserved := ⟨rfl, fun fd hfd => if_pos hfd⟩

theorem Inv.connect (h : Inv s served used) (hstep : act s (.connect j c fd) = some s') :
    Inv s' served (Function.update used j (some (fd, c))) := by
  simp only [act, Option.ite_none_right_eq_some, Option.some.injEq] at hstep
  obtain ⟨⟨-, hphase, hother, hfresh, hfd⟩, rfl⟩ := hstep
  have hserves : ∀ {n c'}, Serves s.conns n c' → c' ≠ c := by
    rintro n c' ⟨-, k, hk, -⟩ rfl
    rw [hk] at hfresh
    cases hfresh
  have hunused : ∀ j' fd', used j' ≠ some (fd', c) := by
    intro j' fd' hj'
    obtain ⟨k, hk⟩ := (hj' ▸ h.reading j').exists_conn
    rw [hfresh] at hk
    cases hk
  obtain ⟨m, hm⟩ := (h.reading j).of_connect hphase
  constructor
  · exact h.server
  · exact h.client.opens hfd hunused
  · exact fun o => (h.serving o).mono fun _ _ _ _ hs => hs.update_of_ne (hserves hs)
  · exact follows_update (.read m (Function.update_self ..) rfl hm)
      fun j' _ => (h.reading j').update_of_ne (hunused j')
  · apply good_update h.good
    rintro k ⟨⟩
    exact .opened
  · refine ⟨?_, h.reserved.2⟩
    exact (Function.update_of_ne (Ne.symm hother) ..).trans h.reserved.1

theorem Inv.accept (h : Inv s served used) (hstep : act s (.accept c fd) = some s') :
    Inv s' (Function.update served none (some (fd, c))) used := by
  simp only [act, Option.ite_none_right_eq_some, Option.some.injEq] at hstep
  obtain ⟨⟨hmain, haccepted, hfd⟩, rfl⟩ := hstep
  obtain ⟨k, hk, hpending⟩ := Option.map_eq_some_iff.mp haccepted
  obtain ⟨hdata, hshut⟩ := (h.good c k hk).pending hpending
  have hserves : ∀ {n c'}, Serves s.conns n c' → c' ≠ c := by
    rintro n c' ⟨-, k', hk', haccepted', -⟩ rfl
    rw [hk] at hk'
    cases hk'
    rw [hpending] at haccepted'
    cases haccepted'
  have hunserved : ∀ o fd', served o ≠ some (fd', c) := by
    intro o fd' ho
    obtain ⟨n, -, hs⟩ := (ho ▸ h.serving o).exists_of_held
    exact hserves hs rfl
  constructor
  · exact h.server.opens hfd hunserved
  · exact h.client
  · apply tied_update
    · refine .some ⟨by omega, { k with accepted := true }, ?_, rfl, hshut, hdata⟩
      rw [updateConn_conns, Function.update_self, hk, Option.map_some]
    · intro o hne
      obtain ⟨i, rfl⟩ := Option.ne_none_iff_exists'.mp hne
      exact (h.serving (some i)).mono fun _ _ _ _ hs => hs.update_of_ne (hserves hs)
  · exact fun j => (h.reading j).update c fun k => ⟨rfl, rfl, id⟩
  · apply good_update h.good
    rw [hk]
    rintro k' ⟨⟩
    exact (h.good c k hk).accept
  · have hother : other ≠ c := by
      rintro rfl
      rw [h.reserved.1] at hk
      cases hk
    refine ⟨(Function.update_of_ne hother ..).trans h.reserved.1, fun fd' hfd' => ?_⟩
    have hne : fd' ≠ fd := by
      rintro rfl
      rw [h.reserved.2 fd' hfd'] at hfd
      cases hfd
    exact (Function.update_of_ne hne ..).trans (h.reserved.2 fd' hfd')

theorem Inv.create (h : Inv s served used) (hstep : act s (.create i) = some s') :
    ∃ served', Inv s' served' used := by
  rcases hmain : s.main with _ | a | _
  · simp only [act, hmain, reduceCtorEq] at hstep
  · simp only [act, hmain, Option.ite_none_right_eq_some, Option.some.injEq] at hstep
    obtain ⟨hfree, rfl⟩ := hstep
    have hserving : s.serving none = some (a, 0) := by simp only [State.serving, hmain]
    obtain ⟨c, hc, hs⟩ := (hserving ▸ h.serving none).exists
    refine ⟨_, h.server.passes (j := some i) hc, h.client, ?_, h.reading, h.good, h.reserved⟩
    apply tied_update
    · rw [serving_setThread]
      exact .some hs
    · intro o hne
      rw [serving_setThread_of_ne _ _ hne]
      rcases o with _ | i'
      · rw [Function.update_self]
        exact .none
      · rw [Function.update_of_ne (Option.some_ne_none i')]
        exact h.serving (some i')
  · simp only [act, hmain, reduceCtorEq] at hstep

/-- The thread and the connection of a call to `write` or `close`. -/
theorem Inv.thread (h : Inv s served used) {t : Thread} (ht : s.threads i = some t) :
    ∃ c k, served (some i) = some (t.fd, c) ∧ s.serverFds t.fd = some c ∧ s.conns c = some k ∧
      t.a ≤ 10 ∧ k.accepted = true ∧ k.shut = false ∧ k.left = false ∧
      k.data = List.replicate t.a 'a' := by
  have hserving : s.serving (some i) = some (t.fd, t.a) := by
    simp only [State.serving, ht, Option.map_some]
  obtain ⟨c, hc, ha, k, hk, haccepted, hshut, hdata⟩ := (hserving ▸ h.serving (some i)).exists
  have hleft : k.left = false := by
    by_contra hleft
    have := (h.good c k hk).shut_of_left (by simpa using hleft)
    rw [hshut] at this
    cases this
  exact ⟨c, k, hc, h.server.opened hc, hk, ha, haccepted, hshut, hleft, hdata⟩

theorem Inv.serving_update (h : Inv s served used) (hc : served (some i) = some (fd, c))
    (x : Option Conn) {o : Option ℕ} (hne : o ≠ some i) :
    Tied (Serves (Function.update s.conns c x)) (s.serving o) (served o) :=
  (h.serving o).mono fun _ _ _ ho hs => hs.update_of_ne (h.server.ne_of_ne hc hne ho).2

theorem Inv.ne_other (h : Inv s served used) {k : Conn} (hk : s.conns c = some k) : other ≠ c := by
  rintro rfl
  rw [h.reserved.1] at hk
  cases hk

theorem Inv.fd_ne (h : Inv s served used) {o : Option ℕ} (hc : served o = some (fd, c)) {fd' : ℕ}
    (hfd' : fd' < 4) : fd' ≠ fd := by
  rintro rfl
  obtain ⟨n, -, -, k, hk, -⟩ := (hc ▸ h.serving o).exists_of_held
  have hopen := h.server.opened hc
  rw [h.reserved.2 fd' hfd'] at hopen
  exact h.ne_other hk (Option.some.inj hopen)

theorem Inv.write (h : Inv s served used) (hstep : act s (.write i) = some s') :
    Inv s' served used := by
  rcases hthread : s.threads i with _ | t
  · simp [act, hthread] at hstep
  · simp only [act, hthread, Option.ite_none_left_eq_some, Option.ite_none_right_eq_some,
      Option.some.injEq] at hstep
    obtain ⟨-, hlt, rfl⟩ := hstep
    obtain ⟨c, k, hc, hfd, hk, -, haccepted, hshut, hleft, hdata⟩ := h.thread hthread
    have hdata' : k.data ++ ['a'] = List.replicate (t.a + 1) 'a' := by
      rw [hdata, List.replicate_succ']
    rw [write_eq s hfd]
    constructor
    · exact h.server
    · exact h.client
    · intro o
      rcases eq_or_ne o (some i) with rfl | hne
      · rw [serving_setThread, hc]
        refine .some ⟨hlt, { k with data := k.data ++ ['a'] }, ?_, haccepted, hshut, hdata'⟩
        change Function.update s.conns c _ c = _
        rw [Function.update_self, hk, Option.map_some, hleft]
        rfl
      · rw [serving_setThread_of_ne _ _ hne]
        exact h.serving_update hc _ hne
    · refine fun j => (h.reading j).update c fun k => ?_
      split <;> exact ⟨rfl, rfl, id⟩
    · apply good_update h.good
      rw [hk, Option.map_some]
      rintro k' ⟨⟩
      rw [if_neg (by simp [hleft])]
      exact (h.good c k hk).write haccepted hshut hlt hdata
    · exact ⟨(Function.update_of_ne (h.ne_other hk) ..).trans h.reserved.1, h.reserved.2⟩

theorem Inv.close (h : Inv s served used) (hstep : act s (.close i) = some s') :
    Inv s' (Function.update served (some i) none) used := by
  rcases hthread : s.threads i with _ | t
  · simp [act, hthread] at hstep
  · simp only [act, hthread, Option.ite_none_left_eq_some, Option.some.injEq] at hstep
    obtain ⟨-, hlt, rfl⟩ := hstep
    obtain ⟨c, k, hc, hfd, hk, hle, haccepted, hshut, hleft, hdata⟩ := h.thread hthread
    obtain hten : t.a = 10 := by omega
    rw [closeServer_eq s hfd]
    constructor
    · exact h.server.closes hc
    · exact h.client
    · apply tied_update
      · rw [serving_setThread]
        exact .none
      · intro o hne
        rw [serving_setThread_of_ne _ _ hne]
        exact h.serving_update hc _ hne
    · exact fun j => (h.reading j).update c fun k => ⟨rfl, rfl, fun _ => rfl⟩
    · apply good_update h.good
      rw [hk, Option.map_some]
      rintro k' ⟨⟩
      exact (h.good c k hk).close haccepted (hten ▸ hdata)
    · refine ⟨(Function.update_of_ne (h.ne_other hk) ..).trans h.reserved.1, fun fd' hfd' => ?_⟩
      exact (Function.update_of_ne (h.fd_ne hc hfd') ..).trans (h.reserved.2 fd' hfd')

theorem record_take (m n : ℕ) : (record m n).take 'a' = record m (n + 1) := by
  unfold record
  rw [Function.iterate_succ_apply']

theorem record_report (m : ℕ) : (record m 10).report = record (m + 1) 0 := by
  unfold record
  rw [Function.iterate_zero_apply, Function.iterate_succ_apply' Record.session]
  generalize Record.session^[m] ⟨0, []⟩ = r
  rfl

theorem Inv.read (h : Inv s served used) (hstep : act s (.read j) = some s') :
    Inv s' served used := by
  rcases hphase : (s.clients j).phase with _ | fd | _
  · simp [act, hphase] at hstep
  · simp only [act, hphase, Option.ite_none_left_eq_some] at hstep
    obtain ⟨-, hstep⟩ := hstep
    obtain ⟨c, k, m, hc, hk, hleft, hrecord⟩ := (h.reading j).of_read hphase
    have hgood := h.good c k hk
    have hused : Function.update used j (some (fd, c)) = used := by
      rw [← hc, Function.update_eq_self]
    rw [State.read, h.client.opened hc] at hstep
    dsimp only at hstep
    rw [hk] at hstep
    dsimp only at hstep
    rcases hch : k.data[k.position]? with _ | ch
    · rw [hch] at hstep
      simp only [Option.ite_none_right_eq_some, Option.some.injEq] at hstep
      obtain ⟨hshut, rfl⟩ := hstep
      have hten : k.position = 10 := by
        have hlength := congrArg List.length (hgood.data_of_shut hshut)
        rw [List.length_replicate] at hlength
        rw [List.getElem?_eq_none_iff] at hch
        have := hgood.position_le
        omega
      refine ⟨h.server, h.client, h.serving, ?_, h.good, h.reserved⟩
      rw [← hused]
      exact follows_update (.close m hk hleft hshut (hten ▸ hrecord)) fun j' _ => h.reading j'
    · rw [hch] at hstep
      obtain rfl := Option.some.inj hstep
      obtain ⟨n, -, hdata⟩ := hgood.letters
      obtain ⟨hlt, hget⟩ := List.getElem?_eq_some_iff.mp hch
      have hmem : ch ∈ List.replicate n 'a' := hdata ▸ hget ▸ List.getElem_mem hlt
      obtain rfl := List.eq_of_mem_replicate hmem
      constructor
      · exact h.server
      · exact h.client
      · exact fun o => (h.serving o).mono fun _ _ _ _ hs => hs.update c fun k => ⟨rfl, rfl, rfl⟩
      · rw [← hused]
        apply follows_update
        · refine .read m ?_ hleft (k := { k with position := k.position + 1 }) ?_
          · change Function.update s.conns c _ c = _
            rw [Function.update_self, hk, Option.map_some]
          · rw [hrecord, record_take]
        · exact fun j' hne => (h.reading j').update_of_ne fun fd' hj' =>
            (h.client.ne_of_ne hc hne hj').2 rfl
      · apply good_update h.good
        rw [hk]
        rintro k' ⟨⟩
        exact hgood.read hlt
      · exact ⟨(Function.update_of_ne (h.ne_other hk) ..).trans h.reserved.1, h.reserved.2⟩
  · simp [act, hphase] at hstep

theorem Inv.leave (h : Inv s served used) (hstep : act s (.leave j) = some s') :
    Inv s' served (Function.update used j none) := by
  rcases hphase : (s.clients j).phase with _ | _ | fd
  · simp [act, hphase] at hstep
  · simp [act, hphase] at hstep
  · simp only [act, hphase, Option.ite_none_left_eq_some, Option.some.injEq] at hstep
    obtain ⟨-, rfl⟩ := hstep
    obtain ⟨c, k, m, hc, hk, hleft, hshut, hrecord⟩ := (h.reading j).of_close hphase
    rw [closeClient_eq s (h.client.opened hc)]
    constructor
    · exact h.server
    · exact h.client.closes hc
    · exact fun o => (h.serving o).mono fun _ _ _ _ hs => hs.update c fun k => ⟨rfl, rfl, rfl⟩
    · apply follows_update
      · exact .connect (m + 1) (by rw [hrecord, record_report])
      · exact fun j' hne => (h.reading j').update_of_ne fun fd' hj' =>
          (h.client.ne_of_ne hc hne hj').2 rfl
    · apply good_update h.good
      rw [hk]
      rintro k' ⟨⟩
      exact (h.good c k hk).leave hshut
    · exact ⟨(Function.update_of_ne (h.ne_other hk) ..).trans h.reserved.1, h.reserved.2⟩

end Steps

section Runs

variable {s s' : State} {actions : List Action}

theorem Inv.act {served : Option ℕ → Option (ℕ × ℕ)} {used : ℕ → Option (ℕ × ℕ)}
    (h : Inv s served used) {a : Action} (hact : act s a = some s') (hmain : s'.main ≠ .ended)
    (hexited : s'.exited = false) : ∃ served' used', Inv s' served' used' := by
  cases a with
  | connect j c fd => exact ⟨_, _, h.connect hact⟩
  | connectFailed j =>
    simp only [Server.act, Option.ite_none_right_eq_some, Option.some.injEq] at hact
    obtain ⟨-, rfl⟩ := hact
    cases hexited
  | accept c fd => exact ⟨_, _, h.accept hact⟩
  | acceptFailed =>
    simp only [Server.act, Option.ite_none_right_eq_some, Option.some.injEq] at hact
    obtain ⟨-, rfl⟩ := hact
    exact absurd rfl hmain
  | create i =>
    obtain ⟨served', h'⟩ := h.create hact
    exact ⟨_, _, h'⟩
  | createFailed =>
    rcases ha : s.main with _ | a | _
    · simp only [Server.act, ha, reduceCtorEq] at hact
    · simp only [Server.act, ha, Option.some.injEq] at hact
      obtain rfl := hact
      exact absurd rfl hmain
    · simp only [Server.act, ha, reduceCtorEq] at hact
  | write i => exact ⟨_, _, h.write hact⟩
  | close i => exact ⟨_, _, h.close hact⟩
  | read j => exact ⟨_, _, h.read hact⟩
  | leave j => exact ⟨_, _, h.leave hact⟩

/-- What the users of the server can rely on, in a state of both processes. -/
structure Orderly (s : State) : Prop where
  /-- Every client thread has seen whole connections of ten letters, and part of one. -/
  clients : ∀ j, ∃ m n, n ≤ 10 ∧ (s.clients j).record = record m n ∧
    ((s.clients j).phase = .connect → n = 0) ∧ ∀ fd, (s.clients j).phase = .close fd → n = 10
  /-- Every thread of the server has a connection of its own, with the letters it has written. -/
  threads : ∀ i t, s.threads i = some t → ∃ c k, s.serverFds t.fd = some c ∧ s.conns c = some k ∧
    k.data = List.replicate t.a 'a' ∧ k.shut = false ∧ k.left = false
  distinct : ∀ i i' t t', s.threads i = some t → s.threads i' = some t' → t.fd = t'.fd → i = i'
  /-- A connection that the server has closed has got ten letters. -/
  closed : ∀ c k, s.conns c = some k → k.shut → k.data = List.replicate 10 'a'
  /-- The socket that listens stays open. -/
  listening : s.serverFds 3 = some other
  /-- Whatever is next, no `write`, `close` or `read` fails. -/
  calls : ∀ a, ¬ Fails s a

end Runs

end CollectedSources.Server
