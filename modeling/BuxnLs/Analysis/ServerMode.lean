/-
  The clients of one server process. `ServerModeOK` is the invariant of all interleavings of the
  accept loop, the wrappers and the exit handler. A wrapper that has not run yet belongs to the
  iteration whose arguments are in scope, so it copies its own; from there every client is served
  by a connection of its own (`clients_served_apart`), and `server_entry` returns behind the end
  of all of them (`server_returns_last`).
-/
import BuxnLs.Lib.Arena
import BuxnLs.Analysis.Handshake
import BuxnLs.Model.ServerMode

namespace BuxnLs.Analysis

open BuxnLs.Lib BuxnLs.Model

section ServerMode

variable {env : Nat → Env} {yuarelParse : Str → Option Url}

/-! ## What a step does -/

/-- A step that moves the wrapper `j`, from `w` to `w'`. -/
inductive WrapperChange (env : Nat → Env) (yuarelParse : Str → Option Url) (s : ServerMode)
    (j : Nat) (w : Wrapper) : Wrapper → ServerMode → Prop where
  | started {args} : w.phase = .spawned → s.args = some args →
      WrapperChange env yuarelParse s j w ⟨.serving args.client, w.connection⟩
        { s with
          wrappers := s.wrappers.set j ⟨.serving args.client, w.connection⟩
          raised := args.readySig :: s.raised }
  | moved {l connection} : w.phase ≠ .spawned →
      connectionStep (env j) yuarelParse w.connection l = some connection →
      (w.phase.hasClosed = false → connection.waiting ≠ .returned) →
      WrapperChange env yuarelParse s j w ⟨w.phase, connection⟩
        { s with wrappers := s.wrappers.set j ⟨w.phase, connection⟩ }
  | left {l connection client} : w.phase = .serving client →
      connectionStep (env j) yuarelParse w.connection l = some connection →
      connection.waiting = .returned →
      WrapperChange env yuarelParse s j w ⟨.closing client, connection⟩
        { s with
          wrappers := s.wrappers.set j ⟨.closing client, connection⟩
          closed := s.closed ++ [client] }
  | ended {client} : w.phase = .closing client →
      WrapperChange env yuarelParse s j w ⟨.ended client, w.connection⟩
        { s with
          wrappers := s.wrappers.set j ⟨.ended client, w.connection⟩
          clients := s.clients.remove j }

inductive ServerModeChange (env : Nat → Env) (yuarelParse : Str → Option Url) (s : ServerMode) :
    ServerMode → Prop where
  | listened : s.phase = .listening →
      ServerModeChange env yuarelParse s { s with phase := .accepting, exitHandler := .waiting }
  | unheard : s.phase = .listening → ServerModeChange env yuarelParse s { s with phase := .failed }
  | accepted : s.phase = .accepting →
      ServerModeChange env yuarelParse s
        { s with
          phase := .handingOver
          args := some ⟨.client s.accepted, s.accepted⟩
          accepted := s.accepted + 1
          wrappers := s.wrappers ++ [⟨.spawned, .init⟩]
          clients := s.clients.put s.wrappers.length () }
  | refused : s.phase = .accepting → ServerModeChange env yuarelParse s s.leaveLoop
  | again {args} : s.phase = .handingOver → s.args = some args → args.readySig ∈ s.raised →
      ServerModeChange env yuarelParse s { s with args := none, phase := .accepting }
  | stopped {args} : s.phase = .handingOver → s.args = some args → args.readySig ∈ s.raised →
      ServerModeChange env yuarelParse s { s with args := none }.leaveLoop
  | joinNext : s.phase = .closing ∨ (∃ j, s.phase = .joining j) →
      ServerModeChange env yuarelParse s s.joinNext
  | returned : s.phase = .joiningExit → s.exitHandler = .ended →
      ServerModeChange env yuarelParse s
        { s with phase := .returned, poolCleanups := s.poolCleanups + 1 }
  | dangling {j : Nat} {connection : Connection} :
      s.wrappers[j]? = some ⟨.spawned, connection⟩ → s.args = none →
      ServerModeChange env yuarelParse s { s with dangling := true }
  | wrapper {j w w' t} : s.wrappers[j]? = some w → WrapperChange env yuarelParse s j w w' t →
      ServerModeChange env yuarelParse s t
  | exit : s.exitHandler = .waiting →
      ServerModeChange env yuarelParse s
        { s with
          shouldTerminate := true, exitHandler := .closing, closed := s.closed ++ [.server] }
  | exitClosed : s.exitHandler = .closing →
      ServerModeChange env yuarelParse s { s with exitHandler := .ended }

theorem serveClient_change {s t : ServerMode} {j : Nat} {w : Wrapper} {l : ConnectionLabel}
    {connection : Connection}
    (hstep : connectionStep (env j) yuarelParse w.connection l = some connection)
    (h : serveClient s j w.phase connection = some t) :
    ∃ w', WrapperChange env yuarelParse s j w w' t := by
  unfold serveClient at h
  split at h
  · cases h
  · rename_i client hphase
    split at h
    · rename_i hreturned
      cases h
      exact ⟨_, .left hphase hstep hreturned⟩
    · rename_i hreturned
      cases h
      rw [← hphase]
      exact ⟨_, .moved (by rw [hphase]; simp) hstep fun _ => hreturned⟩
  · rename_i hspawned hserving
    cases h
    refine ⟨_, .moved hspawned hstep fun hopen => ?_⟩
    cases hphase : w.phase with
    | spawned => exact absurd hphase hspawned
    | serving client => exact absurd hphase (hserving client)
    | closing client => simp [hphase, WrapperPhase.hasClosed] at hopen
    | ended client => simp [hphase, WrapperPhase.hasClosed] at hopen

theorem serverModeStep_change {s t : ServerMode} {l : ServerModeLabel}
    (h : serverModeStep env yuarelParse s l = some t) :
    ServerModeChange env yuarelParse s t := by
  cases l with
  | listen ok =>
      simp only [serverModeStep] at h
      split at h
      · rename_i hphase
        split at h
        · cases h
          exact .listened hphase
        · cases h
          exact .unheard hphase
      · cases h
  | accept ok =>
      simp only [serverModeStep] at h
      split at h
      · rename_i hphase
        split at h
        · cases h
          exact .accepted hphase
        · cases h
          exact .refused hphase
      · cases h
  | ready =>
      simp only [serverModeStep] at h
      split at h
      · rename_i args hphase hargs
        split at h
        · rename_i hraised
          split at h
          · cases h
            exact .stopped hphase hargs hraised
          · cases h
            exact .again hphase hargs hraised
        · cases h
      · cases h
  | listenerClosed =>
      simp only [serverModeStep] at h
      split at h
      · rename_i hphase
        cases h
        exact .joinNext (Or.inl hphase)
      · cases h
  | joined =>
      simp only [serverModeStep] at h
      split at h
      · rename_i j hphase
        split at h
        · cases h
          exact .joinNext (Or.inr ⟨j, hphase⟩)
        · cases h
      · cases h
  | exitJoined =>
      simp only [serverModeStep] at h
      split at h
      · rename_i hc
        cases h
        exact .returned hc.1 hc.2
      · cases h
  | start j =>
      simp only [serverModeStep] at h
      split at h
      · rename_i connection hj
        split at h
        · rename_i hargs
          cases h
          exact .dangling hj hargs
        · rename_i args hargs
          cases h
          exact .wrapper hj (.started rfl hargs)
      · cases h
  | session j l =>
      simp only [serverModeStep] at h
      split at h
      · cases h
      · rename_i w hj
        obtain ⟨connection, hstep, hserve⟩ := Option.bind_eq_some_iff.mp h
        obtain ⟨w', hchange⟩ := serveClient_change hstep hserve
        exact .wrapper hj hchange
  | clientClosed j =>
      simp only [serverModeStep] at h
      split at h
      · rename_i client connection hj
        cases h
        exact .wrapper hj (.ended rfl)
      · cases h
  | exit =>
      simp only [serverModeStep] at h
      split at h
      · rename_i hphase
        cases h
        exact .exit hphase
      · cases h
  | exitClosed =>
      simp only [serverModeStep] at h
      split at h
      · rename_i hphase
        cases h
        exact .exitClosed hphase
      · cases h

/-! ## The invariant -/

/-- A wrapper serves the socket of its own accept, with a session of its own, and is in `buxn_ls`
    as long as that call has not returned. -/
structure WrapperOK (env : Nat → Env) (yuarelParse : Str → Option Url) (j : Nat) (w : Wrapper) :
    Prop where
  own : ∀ client, w.phase.client? = some client → client = .client j
  session : Reachable (connectionStep (env j) yuarelParse) .init w.connection
  inBuxnLs : w.connection.waiting = .returned ↔ w.phase.hasClosed = true

/-- How often the socket of a wrapper in this state has been closed. -/
def closesOf (w : Option Wrapper) : Nat := if w.any fun w => w.phase.hasClosed then 1 else 0

/-- How often the exit handler has closed `server_sock`. -/
def closesByExit : ExitPhase → Nat
  | .unspawned | .waiting => 0
  | .closing | .ended => 1

/-- How often `server_entry` has closed `server_sock`. -/
def closesByEntry : ServerPhase → Nat
  | .listening | .failed | .accepting | .handingOver => 0
  | .closing | .joining _ | .joiningExit | .returned => 1

/-- How often `server_entry` has cleaned up the pool. -/
def cleanupsOf : ServerPhase → Nat
  | .returned => 1
  | _ => 0

structure ServerModeOK (env : Nat → Env) (yuarelParse : Str → Option Url) (s : ServerMode) :
    Prop where
  wrappers : ∀ j w, s.wrappers[j]? = some w → WrapperOK env yuarelParse j w
  accepted : s.accepted = s.wrappers.length
  args : s.phase = .handingOver →
    ∃ n, s.wrappers.length = n + 1 ∧ s.args = some ⟨.client n, n⟩
  /-- What has not run yet belongs to the iteration in progress. -/
  spawned : ∀ j w, s.wrappers[j]? = some w → w.phase = .spawned →
    s.phase = .handingOver ∧ s.wrappers.length = j + 1
  raised : ∀ j, j ∈ s.raised ↔ ∃ w, s.wrappers[j]? = some w ∧ w.phase ≠ .spawned
  clients : ∀ j, j ∈ s.clients.keys ↔ ∃ w, s.wrappers[j]? = some w ∧ w.phase.hasEnded = false
  closedClient : ∀ j, s.closed.count (.client j) = closesOf s.wrappers[j]?
  closedServer : s.closed.count .server = closesByExit s.exitHandler + closesByEntry s.phase
  scope : s.dangling = false
  joining : ∀ j, s.phase = .joining j → j < s.wrappers.length
  joined : s.phase = .joiningExit ∨ s.phase = .returned → s.clients.keys = []
  returned : s.phase = .returned → s.exitHandler = .ended
  pool : s.poolCleanups = cleanupsOf s.phase
  terminate : s.shouldTerminate = true ↔ s.exitHandler = .closing ∨ s.exitHandler = .ended
  unspawned : s.exitHandler = .unspawned ↔ s.phase = .listening ∨ s.phase = .failed
  unserved : s.exitHandler = .unspawned → s.wrappers = [] ∧ s.closed = []

theorem serverModeOK_init : ServerModeOK env yuarelParse .init where
  wrappers := fun j w hj => by simp [ServerMode.init] at hj
  accepted := rfl
  args := fun h => by cases h
  spawned := fun j w hj => by simp [ServerMode.init] at hj
  raised := fun j => by simp [ServerMode.init]
  clients := fun j => by simp [ServerMode.init]
  closedClient := fun j => by simp [ServerMode.init, closesOf]
  closedServer := rfl
  scope := rfl
  joining := fun j h => by cases h
  joined := fun h => by rcases h with h | h <;> cases h
  returned := fun h => by cases h
  pool := rfl
  terminate := by simp [ServerMode.init]
  unspawned := by simp [ServerMode.init]
  unserved := fun _ => ⟨rfl, rfl⟩

theorem ServerModeOK.spawnedExit {s : ServerMode} (h : ServerModeOK env yuarelParse s)
    (hphase : s.phase ≠ .listening ∧ s.phase ≠ .failed) : s.exitHandler ≠ .unspawned :=
  fun hexit => (h.unspawned.mp hexit).elim hphase.1 hphase.2

theorem ServerModeOK.phase_of_spawned {s : ServerMode} (h : ServerModeOK env yuarelParse s)
    (hexit : s.exitHandler ≠ .unspawned) : s.phase ≠ .listening ∧ s.phase ≠ .failed :=
  ⟨fun hp => hexit (h.unspawned.mpr (Or.inl hp)), fun hp => hexit (h.unspawned.mpr (Or.inr hp))⟩

/-- A step that neither spawns nor moves a wrapper: the phases of `server_entry` and of the exit
    handler, with what they close. -/
theorem ServerModeOK.keep {s t : ServerMode} (h : ServerModeOK env yuarelParse s)
    (hwrappers : t.wrappers = s.wrappers) (haccepted : t.accepted = s.accepted)
    (hraised : t.raised = s.raised) (hclients : t.clients = s.clients)
    (hdangling : t.dangling = s.dangling)
    (hclosed : ∀ j, t.closed.count (.client j) = s.closed.count (.client j))
    (hargs : t.phase = .handingOver → s.phase = .handingOver ∧ t.args = s.args)
    (hspawned : s.phase = .handingOver → t.phase = .handingOver ∨
      ∀ (j : Nat) (w : Wrapper), s.wrappers[j]? = some w → w.phase ≠ .spawned)
    (hserver : t.closed.count .server = closesByExit t.exitHandler + closesByEntry t.phase)
    (hjoining : ∀ j, t.phase = .joining j → j < s.wrappers.length)
    (hjoined : t.phase = .joiningExit ∨ t.phase = .returned → s.clients.keys = [])
    (hreturned : t.phase = .returned → t.exitHandler = .ended)
    (hpool : t.poolCleanups = cleanupsOf t.phase)
    (hterminate : t.shouldTerminate = true ↔ t.exitHandler = .closing ∨ t.exitHandler = .ended)
    (hexit : t.exitHandler ≠ .unspawned) (hphase : t.phase ≠ .listening ∧ t.phase ≠ .failed) :
    ServerModeOK env yuarelParse t where
  wrappers := hwrappers ▸ h.wrappers
  accepted := by rw [haccepted, hwrappers, h.accepted]
  args := by
    intro hphase
    obtain ⟨hphase, hargs⟩ := hargs hphase
    rw [hwrappers, hargs]
    exact h.args hphase
  spawned := by
    intro j w hj hw
    rw [hwrappers] at hj ⊢
    obtain ⟨hphase, hlast⟩ := h.spawned j w hj hw
    rcases hspawned hphase with hphase | hno
    · exact ⟨hphase, hlast⟩
    · exact absurd hw (hno j w hj)
  raised := by rw [hraised, hwrappers]; exact h.raised
  clients := by rw [hclients, hwrappers]; exact h.clients
  closedClient := by
    intro j
    rw [hclosed, hwrappers]
    exact h.closedClient j
  closedServer := hserver
  scope := hdangling.trans h.scope
  joining := by rw [hwrappers]; exact hjoining
  joined := by rw [hclients]; exact hjoined
  returned := hreturned
  pool := hpool
  terminate := hterminate
  unspawned := iff_of_false hexit fun hp => hp.elim hphase.1 hphase.2
  unserved := fun he => absurd he hexit

/-- The iteration whose signal is raised leaves nothing behind that has not run. -/
theorem ServerModeOK.handedOver {s : ServerMode} (h : ServerModeOK env yuarelParse s)
    {args : Args} (hphase : s.phase = .handingOver) (hargs : s.args = some args)
    (hraised : args.readySig ∈ s.raised) :
    ∀ (j : Nat) (w : Wrapper), s.wrappers[j]? = some w → w.phase ≠ .spawned := by
  intro j w hj hw
  obtain ⟨n, hlength, hargs'⟩ := h.args hphase
  obtain rfl := Option.some.inj (hargs.symm.trans hargs')
  have hlast := (h.spawned j w hj hw).2
  obtain rfl : j = n := by omega
  obtain ⟨w', hj', hstarted⟩ := (h.raised j).mp hraised
  obtain rfl := Option.some.inj (hj.symm.trans hj')
  exact hstarted hw

/-- A step of one wrapper that has run. -/
theorem ServerModeOK.move {s t : ServerMode} {j : Nat} {w w' : Wrapper}
    (h : ServerModeOK env yuarelParse s) (hj : s.wrappers[j]? = some w)
    (hw : WrapperOK env yuarelParse j w') (hran : w'.phase ≠ .spawned)
    (hwrappers : t.wrappers = s.wrappers.set j w')
    (hraised : ∀ k, k ∈ t.raised ↔ k = j ∨ k ∈ s.raised)
    (hclients : ∀ k, k ∈ t.clients.keys ↔
      k ∈ s.clients.keys ∧ (k = j → w'.phase.hasEnded = false))
    (hended : w.phase.hasEnded = true → w'.phase.hasEnded = true)
    (hclosed : ∀ k, t.closed.count (.client k) =
      if k = j then closesOf (some w') else s.closed.count (.client k))
    (hserver : t.closed.count .server = s.closed.count .server)
    (hphase : t.phase = s.phase) (haccepted : t.accepted = s.accepted) (hargs : t.args = s.args)
    (hexit : t.exitHandler = s.exitHandler) (hterminate : t.shouldTerminate = s.shouldTerminate)
    (hdangling : t.dangling = s.dangling) (hpool : t.poolCleanups = s.poolCleanups) :
    ServerModeOK env yuarelParse t := by
  have hlt := (List.getElem?_eq_some_iff.mp hj).1
  have hat : ∀ k, t.wrappers[k]? = if k = j then some w' else s.wrappers[k]? := by
    intro k
    rw [hwrappers, List.getElem?_set]
    by_cases hk : j = k
    · subst hk
      rw [if_pos rfl, if_pos hlt, if_pos rfl]
    · rw [if_neg hk, if_neg (Ne.symm hk)]
  have hlength : t.wrappers.length = s.wrappers.length := by rw [hwrappers, List.length_set]
  constructor
  case wrappers =>
    intro k w₁ hk
    rw [hat] at hk
    split at hk
    · rename_i hkj
      obtain rfl := Option.some.inj hk
      exact hkj ▸ hw
    · exact h.wrappers k w₁ hk
  case accepted => rw [haccepted, hlength, h.accepted]
  case args => rw [hphase, hlength, hargs]; exact h.args
  case spawned =>
    intro k w₁ hk hw₁
    rw [hat] at hk
    split at hk
    · obtain rfl := Option.some.inj hk
      exact absurd hw₁ hran
    · rw [hphase, hlength]
      exact h.spawned k w₁ hk hw₁
  case raised =>
    intro k
    rw [hraised, hat]
    by_cases hkj : k = j
    · rw [if_pos hkj]
      exact ⟨fun _ => ⟨w', rfl, hran⟩, fun _ => Or.inl hkj⟩
    · rw [if_neg hkj, h.raised]
      exact ⟨fun hk => hk.resolve_left hkj, Or.inr⟩
  case clients =>
    intro k
    rw [hclients, hat, h.clients]
    by_cases hkj : k = j
    · subst hkj
      rw [if_pos rfl]
      constructor
      · exact fun hk => ⟨w', rfl, hk.2 rfl⟩
      · rintro ⟨w₁, hw₁, hopen⟩
        obtain rfl := Option.some.inj hw₁
        refine ⟨⟨w, hj, ?_⟩, fun _ => hopen⟩
        refine Bool.eq_false_iff.mpr fun he => ?_
        rw [hended he] at hopen
        exact absurd hopen (by decide)
    · rw [if_neg hkj]
      exact ⟨And.left, fun hk => ⟨hk, fun he => absurd he hkj⟩⟩
  case closedClient =>
    intro k
    rw [hclosed, hat]
    split
    · rfl
    · exact h.closedClient k
  case closedServer => rw [hserver, hexit, hphase]; exact h.closedServer
  case scope => exact hdangling.trans h.scope
  case joining => rw [hphase, hlength]; exact h.joining
  case joined =>
    intro hp
    rw [hphase] at hp
    refine List.eq_nil_iff_forall_not_mem.mpr fun k hk => ?_
    have hmem := ((hclients k).mp hk).1
    rw [h.joined hp] at hmem
    exact absurd hmem List.not_mem_nil
  case returned => rw [hphase, hexit]; exact h.returned
  case pool => rw [hpool, hphase]; exact h.pool
  case terminate => rw [hterminate, hexit]; exact h.terminate
  case unspawned => rw [hexit, hphase]; exact h.unspawned
  case unserved =>
    intro he
    rw [(h.unserved (hexit ▸ he)).1, List.getElem?_nil] at hj
    cases hj

theorem WrapperChange.ok {s t : ServerMode} {j : Nat} {w w' : Wrapper}
    (h : ServerModeOK env yuarelParse s) (hj : s.wrappers[j]? = some w)
    (hstep : WrapperChange env yuarelParse s j w w' t) : ServerModeOK env yuarelParse t := by
  have hw := h.wrappers j w hj
  have hcloses : closesOf (some w) = s.closed.count (.client j) := by
    rw [h.closedClient j, hj]
  have hmem : j ∈ s.clients.keys ↔ w.phase.hasEnded = false := by
    rw [h.clients, hj]
    exact ⟨fun ⟨w₁, hw₁, ho⟩ => Option.some.inj hw₁ ▸ ho, fun ho => ⟨w, rfl, ho⟩⟩
  have hsame : ∀ {w' : Wrapper}, w'.phase.hasEnded = w.phase.hasEnded → ∀ k,
      (k ∈ s.clients.keys ↔ k ∈ s.clients.keys ∧ (k = j → w'.phase.hasEnded = false)) := by
    intro w' he k
    refine ⟨fun hk => ⟨hk, fun hkj => ?_⟩, And.left⟩
    rw [he]
    exact hmem.mp (hkj ▸ hk)
  have hstay : ∀ {w' : Wrapper}, w'.phase.hasClosed = w.phase.hasClosed → ∀ k,
      s.closed.count (.client k) =
        if k = j then closesOf (some w') else s.closed.count (.client k) := by
    intro w' hc k
    split
    · rename_i hk
      rw [hk, ← hcloses]
      simp only [closesOf, Option.any_some, hc]
    · rfl
  cases hstep with
  | @started args hphase hargs =>
      obtain ⟨hover, hlast⟩ := h.spawned j w hj hphase
      obtain ⟨n, hlength, hargs'⟩ := h.args hover
      obtain rfl : j = n := by omega
      obtain rfl := Option.some.inj (hargs.symm.trans hargs')
      have hok : WrapperOK env yuarelParse j ⟨.serving (.client j), w.connection⟩ :=
        { own := fun client hc => (Option.some.inj hc).symm
          session := hw.session
          inBuxnLs := hw.inBuxnLs.trans (by rw [hphase]; rfl) }
      exact h.move hj hok (by simp) rfl (fun k => List.mem_cons)
        (hsame (by rw [hphase]; rfl)) (fun he => by rw [hphase] at he; exact he)
        (hstay (by rw [hphase]; rfl)) rfl rfl rfl rfl rfl rfl rfl rfl
  | @moved l connection hran hconn hstays =>
      have hraised : j ∈ s.raised := (h.raised j).mpr ⟨w, hj, hran⟩
      have hok : WrapperOK env yuarelParse j ⟨w.phase, connection⟩ :=
        { own := hw.own
          session := hw.session.next hconn
          inBuxnLs := by
            constructor
            · intro hr
              by_contra hc
              exact hstays (Bool.eq_false_iff.mpr hc) hr
            · exact fun hc => connectionStep_returned hconn (hw.inBuxnLs.mpr hc) }
      exact h.move hj hok hran rfl
        (fun k => ⟨Or.inr, fun hk => hk.elim (fun he => he ▸ hraised) id⟩)
        (hsame rfl) id (hstay rfl) rfl rfl rfl rfl rfl rfl rfl rfl
  | @left l connection client hphase hconn hreturned =>
      have hraised : j ∈ s.raised := (h.raised j).mpr ⟨w, hj, by rw [hphase]; simp⟩
      obtain rfl : client = .client j := hw.own client (by rw [hphase]; rfl)
      have hok : WrapperOK env yuarelParse j ⟨.closing (.client j), connection⟩ :=
        { own := fun client hc => (Option.some.inj hc).symm
          session := hw.session.next hconn
          inBuxnLs := ⟨fun _ => rfl, fun _ => hreturned⟩ }
      refine h.move hj hok (by simp) rfl
        (fun k => ⟨Or.inr, fun hk => hk.elim (fun he => he ▸ hraised) id⟩)
        (hsame (by rw [hphase]; rfl)) (fun he => by rw [hphase] at he; exact he) ?_ ?_ rfl rfl
        rfl rfl rfl rfl rfl
      · intro k
        dsimp only
        rw [List.count_append]
        by_cases hk : k = j
        · subst hk
          rw [if_pos rfl, ← hcloses]
          simp [closesOf, hphase, WrapperPhase.hasClosed]
        · rw [if_neg hk]
          simp [Ne.symm hk]
      · simp
  | @ended client hphase =>
      have hraised : j ∈ s.raised := (h.raised j).mpr ⟨w, hj, by rw [hphase]; simp⟩
      obtain rfl : client = .client j := hw.own client (by rw [hphase]; rfl)
      have hok : WrapperOK env yuarelParse j ⟨.ended (.client j), w.connection⟩ :=
        { own := fun client hc => (Option.some.inj hc).symm
          session := hw.session
          inBuxnLs := hw.inBuxnLs.trans (by rw [hphase]; rfl) }
      refine h.move hj hok (by simp) rfl
        (fun k => ⟨Or.inr, fun hk => hk.elim (fun he => he ▸ hraised) id⟩) ?_
        (fun _ => rfl) (hstay (by rw [hphase]; rfl)) rfl rfl rfl rfl rfl rfl rfl rfl
      intro k
      rw [Table.mem_keys_remove]
      refine and_congr_right fun _ => ⟨fun hne he => absurd he hne, fun hno he => ?_⟩
      exact absurd (hno he) (by simp [WrapperPhase.hasEnded])

theorem ServerModeOK.accept {s : ServerMode} (h : ServerModeOK env yuarelParse s)
    (hphase : s.phase = .accepting) :
    ServerModeOK env yuarelParse
      { s with
        phase := .handingOver
        args := some ⟨.client s.accepted, s.accepted⟩
        accepted := s.accepted + 1
        wrappers := s.wrappers ++ [Wrapper.mk .spawned .init]
        clients := s.clients.put s.wrappers.length () } := by
  have hnew : ∀ j w, (s.wrappers ++ [Wrapper.mk .spawned .init])[j]? = some w ↔
      s.wrappers[j]? = some w ∨ j = s.wrappers.length ∧ w = ⟨.spawned, .init⟩ := by
    intro j w
    exact getElem?_alloc_iff s.wrappers _ w j
  have hnone : s.wrappers[s.wrappers.length]? = none := List.getElem?_eq_none (Nat.le_refl _)
  have hran : ∀ (j : Nat) (w : Wrapper), s.wrappers[j]? = some w → w.phase ≠ .spawned :=
    fun j w hj hw => absurd (hphase.symm.trans (h.spawned j w hj hw).1) (by decide)
  constructor
  case wrappers =>
    intro j w hj
    rcases (hnew j w).mp hj with hj | ⟨-, rfl⟩
    · exact h.wrappers j w hj
    · exact
        { own := fun client hc => by simp [WrapperPhase.client?] at hc
          session := .refl _
          inBuxnLs := by simp [WrapperPhase.hasClosed, Connection.init] }
  case accepted => simp [h.accepted]
  case args => exact fun _ => ⟨s.wrappers.length, by simp, by rw [h.accepted]⟩
  case spawned =>
    intro j w hj hw
    rcases (hnew j w).mp hj with hj | ⟨rfl, -⟩
    · exact absurd hw (hran j w hj)
    · exact ⟨rfl, by simp⟩
  case raised =>
    intro j
    rw [h.raised]
    constructor
    · rintro ⟨w, hj, hw⟩
      exact ⟨w, (hnew j w).mpr (Or.inl hj), hw⟩
    · rintro ⟨w, hj, hw⟩
      rcases (hnew j w).mp hj with hj | ⟨-, rfl⟩
      · exact ⟨w, hj, hw⟩
      · exact absurd rfl hw
  case clients =>
    intro j
    rw [Table.mem_keys_put, h.clients]
    constructor
    · rintro (⟨w, hj, hw⟩ | rfl)
      · exact ⟨w, (hnew j w).mpr (Or.inl hj), hw⟩
      · exact ⟨_, (hnew _ _).mpr (Or.inr ⟨rfl, rfl⟩), rfl⟩
    · rintro ⟨w, hj, hw⟩
      rcases (hnew j w).mp hj with hj | ⟨hj, -⟩
      · exact Or.inl ⟨w, hj, hw⟩
      · exact Or.inr hj
  case closedClient =>
    intro j
    rw [h.closedClient]
    by_cases hj : j = s.wrappers.length
    · subst hj
      simp [closesOf, WrapperPhase.hasClosed]
    · refine congrArg closesOf (Option.ext fun w => ?_)
      refine ⟨fun hw => (hnew j w).mpr (Or.inl hw), fun hw => ?_⟩
      exact ((hnew j w).mp hw).resolve_right fun he => hj he.1
  case closedServer =>
    have hs := h.closedServer
    rw [hphase] at hs
    exact hs
  case scope => exact h.scope
  case joining => exact fun j hp => by cases hp
  case joined => exact fun hp => by rcases hp with hp | hp <;> cases hp
  case returned => exact fun hp => by cases hp
  case pool =>
    have hp := h.pool
    rw [hphase] at hp
    exact hp
  case terminate => exact h.terminate
  case unspawned =>
    have hexit := h.spawnedExit (by rw [hphase]; decide)
    exact iff_of_false hexit (by simp)
  case unserved => exact fun he => absurd he (h.spawnedExit (by rw [hphase]; decide))

theorem joinNext_cases (s : ServerMode) :
    (s.clients.keys = [] ∧ s.joinNext = { s with phase := .joiningExit }) ∨
      ∃ j, j ∈ s.clients.keys ∧ s.joinNext = { s with phase := .joining j } := by
  unfold ServerMode.joinNext
  split
  · rename_i hkeys
    exact Or.inl ⟨hkeys, rfl⟩
  · rename_i j rest hkeys
    exact Or.inr ⟨j, by rw [hkeys]; exact List.mem_cons_self, rfl⟩

/-- The calls of `bio_net_close` on `server_sock` when `server_entry` leaves the accept loop. -/
theorem leaveLoop_closed {s : ServerMode}
    (hserver : s.closed.count .server = closesByExit s.exitHandler) :
    s.leaveLoop.closed.count .server = closesByExit s.exitHandler + 1 := by
  unfold ServerMode.leaveLoop
  dsimp only
  rw [List.count_append, hserver]
  rfl

theorem ServerModeOK.client_lt {s : ServerMode} (h : ServerModeOK env yuarelParse s) {j : Nat}
    (hj : j ∈ s.clients.keys) : j < s.wrappers.length := by
  obtain ⟨w, hw, -⟩ := (h.clients j).mp hj
  exact lt_length_of_getElem? hw

theorem ServerModeChange.ok {s t : ServerMode} (h : ServerModeOK env yuarelParse s)
    (hstep : ServerModeChange env yuarelParse s t) : ServerModeOK env yuarelParse t := by
  have hserver := h.closedServer
  have hpool := h.pool
  cases hstep with
  | listened hphase =>
      rw [hphase] at hserver hpool
      have hexit := h.unspawned.mpr (Or.inl hphase)
      rw [hexit] at hserver
      have hterminate : ¬ s.shouldTerminate = true := fun ht => by
        rcases h.terminate.mp ht with he | he <;> cases hexit.symm.trans he
      exact h.keep rfl rfl rfl rfl rfl (fun j => rfl) (fun hp => by cases hp)
        (fun hp => absurd (hphase.symm.trans hp) (by decide)) hserver (fun j hp => by cases hp)
        (fun hp => by rcases hp with hp | hp <;> cases hp) (fun hp => by cases hp) hpool
        (iff_of_false hterminate (by simp)) (by simp) (by simp)
  | unheard hphase =>
      rw [hphase] at hserver hpool
      have hexit := h.unspawned.mpr (Or.inl hphase)
      exact
        { wrappers := h.wrappers
          accepted := h.accepted
          args := fun hp => by cases hp
          spawned := fun j w hj hw => by
            have hp := (h.spawned j w hj hw).1
            rw [hphase] at hp
            cases hp
          raised := h.raised
          clients := h.clients
          closedClient := h.closedClient
          closedServer := hserver
          scope := h.scope
          joining := fun j hp => by cases hp
          joined := fun hp => by rcases hp with hp | hp <;> cases hp
          returned := fun hp => by cases hp
          pool := hpool
          terminate := h.terminate
          unspawned := iff_of_true hexit (Or.inr rfl)
          unserved := h.unserved }
  | accepted hphase => exact h.accept hphase
  | refused hphase =>
      have hexit := h.spawnedExit (by rw [hphase]; decide)
      rw [hphase] at hserver hpool
      exact h.keep rfl rfl rfl rfl rfl (fun j => by simp [ServerMode.leaveLoop])
        (fun hp => by cases hp) (fun hp => absurd (hphase.symm.trans hp) (by decide))
        (leaveLoop_closed hserver) (fun j hp => by cases hp)
        (fun hp => by rcases hp with hp | hp <;> cases hp) (fun hp => by cases hp) hpool
        h.terminate hexit (by simp [ServerMode.leaveLoop])
  | again hphase hargs hraised =>
      have hexit := h.spawnedExit (by rw [hphase]; decide)
      rw [hphase] at hserver hpool
      exact h.keep rfl rfl rfl rfl rfl (fun j => rfl) (fun hp => by cases hp)
        (fun _ => Or.inr (h.handedOver hphase hargs hraised)) hserver (fun j hp => by cases hp)
        (fun hp => by rcases hp with hp | hp <;> cases hp) (fun hp => by cases hp) hpool
        h.terminate hexit (by simp)
  | stopped hphase hargs hraised =>
      have hexit := h.spawnedExit (by rw [hphase]; decide)
      rw [hphase] at hserver hpool
      exact h.keep rfl rfl rfl rfl rfl (fun j => by simp [ServerMode.leaveLoop])
        (fun hp => by cases hp) (fun _ => Or.inr (h.handedOver hphase hargs hraised))
        (leaveLoop_closed hserver) (fun j hp => by cases hp)
        (fun hp => by rcases hp with hp | hp <;> cases hp) (fun hp => by cases hp) hpool
        h.terminate hexit (by simp [ServerMode.leaveLoop])
  | joinNext hphase =>
      have hexit := h.spawnedExit (by rcases hphase with hp | ⟨j, hp⟩ <;> rw [hp] <;> simp)
      have hpast : s.phase ≠ .handingOver ∧ closesByEntry s.phase = 1 ∧ cleanupsOf s.phase = 0 := by
        rcases hphase with hp | ⟨j, hp⟩
        · rw [hp]
          decide
        · rw [hp]
          exact ⟨by simp, rfl, rfl⟩
      rw [hpast.2.1] at hserver
      rw [hpast.2.2] at hpool
      rcases joinNext_cases s with ⟨hkeys, hnext⟩ | ⟨j, hj, hnext⟩
      · rw [hnext]
        exact h.keep rfl rfl rfl rfl rfl (fun j => rfl) (fun hp => by cases hp)
          (fun hp => absurd hp hpast.1) hserver (fun j hp => by cases hp) (fun _ => hkeys)
          (fun hp => by cases hp) hpool h.terminate hexit (by simp)
      · rw [hnext]
        exact h.keep rfl rfl rfl rfl rfl (fun j => rfl) (fun hp => by cases hp)
          (fun hp => absurd hp hpast.1) hserver
          (fun k hp => ServerPhase.joining.inj hp ▸ h.client_lt hj)
          (fun hp => by rcases hp with hp | hp <;> cases hp) (fun hp => by cases hp) hpool
          h.terminate hexit (by simp)
  | returned hphase hexit =>
      rw [hphase] at hserver hpool
      exact h.keep rfl rfl rfl rfl rfl (fun j => rfl) (fun hp => by cases hp)
        (fun hp => absurd (hphase.symm.trans hp) (by decide)) hserver (fun j hp => by cases hp)
        (fun _ => h.joined (Or.inl hphase)) (fun _ => hexit) (congrArg (· + 1) hpool) h.terminate
        (by rw [hexit]; simp) (by simp)
  | @dangling j connection hj hargs =>
      obtain ⟨hphase, -⟩ := h.spawned j _ hj rfl
      obtain ⟨n, -, hargs'⟩ := h.args hphase
      exact absurd (hargs.symm.trans hargs') (by simp)
  | wrapper hj hw => exact hw.ok h hj
  | exit hexit =>
      rw [hexit] at hserver
      refine h.keep rfl rfl rfl rfl rfl (fun j => by simp) (fun hp => ⟨hp, rfl⟩) Or.inl ?_
        h.joining h.joined (fun hp => ?_) hpool (by simp) (by simp) (h.phase_of_spawned ?_)
      · dsimp only
        rw [List.count_append, hserver, show closesByExit .waiting = 0 from rfl, Nat.zero_add]
        exact Nat.add_comm _ _
      · exact absurd (hexit.symm.trans (h.returned hp)) (by decide)
      · rw [hexit]
        decide
  | exitClosed hexit =>
      rw [hexit] at hserver
      refine h.keep rfl rfl rfl rfl rfl (fun j => rfl) (fun hp => ⟨hp, rfl⟩) Or.inl hserver
        h.joining h.joined (fun _ => rfl) hpool ⟨fun _ => by simp, fun _ => ?_⟩ (by simp)
        (h.phase_of_spawned ?_)
      · exact h.terminate.mpr (Or.inl hexit)
      · rw [hexit]
        decide

/-- Every reachable state of the server process keeps the invariant. -/
theorem reachable_serverModeOK {s : ServerMode}
    (hr : Reachable (serverModeStep env yuarelParse) .init s) :
    ServerModeOK env yuarelParse s :=
  hr.inv serverModeOK_init fun _ _ _ hs h => (serverModeStep_change h).ok hs

/-! ## Safety -/

/-- Each client has a session of its own: its wrapper serves the socket of its own accept, and its
    call of `buxn_ls` is in a state that it would reach alone. No wrapper has read the arguments
    behind the iteration that spawned it. -/
theorem clients_served_apart {s : ServerMode}
    (hr : Reachable (serverModeStep env yuarelParse) .init s) :
    s.dangling = false ∧ ∀ (j : Nat) (w : Wrapper), s.wrappers[j]? = some w →
      (∀ client, w.phase.client? = some client → client = .client j) ∧
      Reachable (connectionStep (env j) yuarelParse) .init w.connection := by
  have h := reachable_serverModeOK hr
  refine ⟨h.scope, fun j w hj => ?_⟩
  have hw := h.wrappers j w hj
  exact ⟨hw.own, hw.session⟩

theorem ServerModeOK.ended {s : ServerMode} (h : ServerModeOK env yuarelParse s)
    (hkeys : s.clients.keys = []) {j : Nat} {w : Wrapper} (hj : s.wrappers[j]? = some w) :
    w.phase = .ended (.client j) := by
  have hended : w.phase.hasEnded = true := by
    by_contra hopen
    have hmem := (h.clients j).mpr ⟨w, hj, Bool.eq_false_iff.mpr hopen⟩
    rw [hkeys] at hmem
    exact absurd hmem List.not_mem_nil
  have hown := (h.wrappers j w hj).own
  cases hphase : w.phase with
  | ended client =>
      rw [hphase] at hown
      rw [hown client rfl]
  | _ =>
      rw [hphase] at hended
      cases hended

/-- One client comes, starts its session and leaves; then the server is stopped. -/
def oneClientRun : List ServerModeLabel :=
  [.listen true, .accept true, .start 0, .ready, .session 0 (.recv initializeMsg), .exit,
    .session 0 .recvFailed, .accept false, .listenerClosed, .clientClosed 0, .joined, .exitClosed,
    .exitJoined]

/-- In the middle of that run. -/
theorem one_client_served_apart :
    ∃ s w, run (serverModeStep (fun _ => asciiEnv) asciiUrl) .init (oneClientRun.take 6) = some s ∧
      s.wrappers[0]? = some w ∧ w.phase = .serving (.client 0) ∧ s.dangling = false ∧
      (∀ client, w.phase.client? = some client → client = .client 0) ∧
      Reachable (connectionStep asciiEnv asciiUrl) .init w.connection := by
  have hrun : ((run (serverModeStep (fun _ => asciiEnv) asciiUrl) .init
      (oneClientRun.take 6)).bind fun s => s.wrappers[0]?.map Wrapper.phase) =
        some (.serving (.client 0)) := by decide
  obtain ⟨s, hs, hw⟩ := Option.bind_eq_some_iff.mp hrun
  obtain ⟨w, hw, hphase⟩ := Option.map_eq_some_iff.mp hw
  have hr : Reachable (serverModeStep (fun _ => asciiEnv) asciiUrl) .init s := ⟨_, hs⟩
  obtain ⟨hscope, hall⟩ := clients_served_apart hr
  exact ⟨s, w, hs, hw, hphase, hscope, hall 0 w hw⟩

/-- While a wrapper is in `buxn_ls`, the pool is alive and its socket open, and no socket is
    closed twice. When `server_entry` returns 0, every wrapper has ended, every accepted socket has
    been closed exactly once and `server_sock` twice, and the pool has been cleaned up once. When
    it returns 1, it has spawned no coroutine, closed nothing and not cleaned up the pool. -/
theorem server_returns_last {s : ServerMode}
    (hr : Reachable (serverModeStep env yuarelParse) .init s) :
    (∀ j, s.closed.count (.client j) ≤ 1) ∧
    (∀ (j : Nat) (w : Wrapper) client, s.wrappers[j]? = some w → w.phase = .serving client →
      s.poolCleanups = 0 ∧ s.closed.count client = 0) ∧
    (s.phase = .returned →
      (∀ (j : Nat) (w : Wrapper), s.wrappers[j]? = some w → w.phase = .ended (.client j)) ∧
      (∀ j, j < s.accepted → s.closed.count (.client j) = 1) ∧
      s.closed.count .server = 2 ∧ s.poolCleanups = 1) ∧
    (s.phase = .failed →
      s.wrappers = [] ∧ s.exitHandler = .unspawned ∧ s.closed = [] ∧ s.poolCleanups = 0) := by
  have h := reachable_serverModeOK hr
  refine ⟨fun j => ?_, fun j w client hj hphase => ⟨?_, ?_⟩, fun hphase => ?_, fun hphase => ?_⟩
  · rw [h.closedClient]
    unfold closesOf
    split
    · exact Nat.le_refl 1
    · exact Nat.zero_le 1
  · rw [h.pool]
    have hrunning : s.phase ≠ .returned := fun hreturned => by
      have hended := h.ended (h.joined (Or.inr hreturned)) hj
      rw [hphase] at hended
      cases hended
    unfold cleanupsOf
    split
    · exact absurd ‹_› hrunning
    · rfl
  · obtain rfl := (h.wrappers j w hj).own client (by rw [hphase]; rfl)
    rw [h.closedClient, hj]
    simp [closesOf, hphase, WrapperPhase.hasClosed]
  · have hended := fun j w hj => h.ended (h.joined (Or.inr hphase)) (j := j) (w := w) hj
    refine ⟨hended, fun j hj => ?_, ?_, ?_⟩
    · rw [h.accepted] at hj
      have hw := List.getElem?_eq_getElem hj
      rw [h.closedClient, hw]
      simp only [closesOf, Option.any_some, hended j _ hw, WrapperPhase.hasClosed, if_true]
    · rw [h.closedServer, h.returned hphase, hphase]
      rfl
    · rw [h.pool, hphase]
      rfl
  · have hexit := h.unspawned.mpr (Or.inr hphase)
    obtain ⟨hwrappers, hclosed⟩ := h.unserved hexit
    exact ⟨hwrappers, hexit, hclosed, by rw [h.pool, hphase]; rfl⟩

/-- The whole run. -/
theorem one_client_returns_last :
    ∃ s, run (serverModeStep (fun _ => asciiEnv) asciiUrl) .init oneClientRun = some s ∧
      s.closed.count .server = 2 ∧ s.poolCleanups = 1 := by
  have hrun : ((run (serverModeStep (fun _ => asciiEnv) asciiUrl) .init oneClientRun).map
      ServerMode.phase) = some .returned := by decide
  obtain ⟨s, hs, hphase⟩ := Option.map_eq_some_iff.mp hrun
  have hr : Reachable (serverModeStep (fun _ => asciiEnv) asciiUrl) .init s := ⟨_, hs⟩
  obtain ⟨-, -, hend, -⟩ := server_returns_last hr
  exact ⟨s, hs, (hend hphase).2.2⟩

/-! ## The way to the end -/

/-- Every session is at a point where its main loop waits for a message. -/
def AtRest (s : ServerMode) : Prop :=
  ∀ (j : Nat) (w : Wrapper), s.wrappers[j]? = some w → w.connection.session.active = none

/-- Some run that accepts no client leads from `s` to `t`. -/
def Leads (env : Nat → Env) (yuarelParse : Str → Option Url) (s t : ServerMode) : Prop :=
  ∃ ls, (∀ l ∈ ls, l ≠ .accept true) ∧ run (serverModeStep env yuarelParse) s ls = some t

theorem Leads.refl (s : ServerMode) : Leads env yuarelParse s s := ⟨[], by simp, rfl⟩

theorem Leads.trans {s t u : ServerMode} (h : Leads env yuarelParse s t)
    (h' : Leads env yuarelParse t u) : Leads env yuarelParse s u := by
  obtain ⟨ls, hls, hrun⟩ := h
  obtain ⟨ls', hls', hrun'⟩ := h'
  refine ⟨ls ++ ls', fun l hl => ?_, by rw [run_append, hrun, Option.bind_some, hrun']⟩
  exact (List.mem_append.mp hl).elim (hls l) (hls' l)

theorem Leads.step {s t u : ServerMode} {l : ServerModeLabel}
    (h : serverModeStep env yuarelParse s l = some t) (hl : l ≠ .accept true)
    (h' : Leads env yuarelParse t u) : Leads env yuarelParse s u := by
  refine Leads.trans ⟨[l], by simpa using hl, ?_⟩ h'
  rw [run_cons, h, Option.bind_some, run_nil]

theorem Leads.reachable {s t : ServerMode} (h : Leads env yuarelParse s t)
    (hr : Reachable (serverModeStep env yuarelParse) .init s) :
    Reachable (serverModeStep env yuarelParse) .init t := by
  obtain ⟨ls, -, hrun⟩ := h
  exact hr.run hrun

/-- The steps that a wrapper has before it. -/
def stepsLeft : WrapperPhase → Nat
  | .spawned => 3
  | .serving _ => 2
  | .closing _ => 1
  | .ended _ => 0

def remaining (s : ServerMode) : Nat := totalOf (fun w => stepsLeft w.phase) s.wrappers

theorem AtRest.set {s t : ServerMode} (h : AtRest s) {j : Nat} {w : Wrapper}
    (hw : w.connection.session.active = none) (ht : t.wrappers = s.wrappers.set j w) :
    AtRest t := by
  intro k w' hk
  rw [ht, List.getElem?_set] at hk
  split at hk
  · split at hk
    · obtain rfl := Option.some.inj hk
      exact hw
    · cases hk
  · exact h k w' hk

/-- A wrapper that has not ended can go on by itself: its client disconnects. -/
theorem wrapper_proceeds {s : ServerMode} (h : ServerModeOK env yuarelParse s) (hrest : AtRest s)
    {j : Nat} {w : Wrapper} (hj : s.wrappers[j]? = some w) (hopen : w.phase.hasEnded = false) :
    ∃ l t, serverModeStep env yuarelParse s l = some t ∧ l ≠ .accept true ∧ AtRest t ∧
      remaining t < remaining s ∧ t.phase = s.phase ∧ t.exitHandler = s.exitHandler := by
  have hquiet := hrest j w hj
  have hless : ∀ w' : Wrapper, stepsLeft w'.phase < stepsLeft w.phase →
      totalOf (fun w => stepsLeft w.phase) (s.wrappers.set j w') < remaining s :=
    fun w' hlt => totalOf_set_lt (fun w : Wrapper => stepsLeft w.phase) hj hlt
  obtain ⟨phase, connection⟩ := w
  cases phase with
  | spawned =>
      obtain ⟨n, -, hargs⟩ := h.args (h.spawned j _ hj rfl).1
      refine ⟨.start j, { s with
        wrappers := s.wrappers.set j ⟨.serving (.client n), connection⟩, raised := n :: s.raised },
        by simp only [serverModeStep, hj, hargs], by simp, ?_, ?_, rfl, rfl⟩
      · exact hrest.set (w := ⟨.serving (.client n), connection⟩) hquiet rfl
      · exact hless ⟨.serving (.client n), connection⟩ (Nat.lt_succ_self 2)
  | serving client =>
      have hin : connection.waiting ≠ .returned := fun hreturned =>
        absurd ((h.wrappers j _ hj).inBuxnLs.mp hreturned) (by simp [WrapperPhase.hasClosed])
      have hfailed : connectionStep (env j) yuarelParse connection .recvFailed =
          some connection.finish := if_pos ⟨hquiet, hin⟩
      have hactive : connection.finish.session.active = none := by
        unfold Connection.finish
        split
        · exact hquiet
        · exact hquiet
      refine ⟨.session j .recvFailed, { s with
        wrappers := s.wrappers.set j ⟨.closing client, connection.finish⟩
        closed := s.closed ++ [client] }, ?_, by simp, ?_, ?_, rfl, rfl⟩
      · simp only [serverModeStep, hj, hfailed, Option.bind_some, serveClient, finish_waiting,
          if_true]
      · exact hrest.set hactive rfl
      · exact hless ⟨.closing client, connection.finish⟩ (Nat.lt_succ_self 1)
  | closing client =>
      refine ⟨.clientClosed j, { s with
        wrappers := s.wrappers.set j ⟨.ended client, connection⟩, clients := s.clients.remove j },
        by simp only [serverModeStep, hj], by simp, ?_, ?_, rfl, rfl⟩
      · exact hrest.set (w := ⟨.ended client, connection⟩) hquiet rfl
      · exact hless ⟨.ended client, connection⟩ (Nat.lt_succ_self 0)
  | ended client => simp [WrapperPhase.hasEnded] at hopen

def AllEnded (s : ServerMode) : Prop :=
  ∀ (j : Nat) (w : Wrapper), s.wrappers[j]? = some w → w.phase.hasEnded = true

theorem clients_end {s : ServerMode} (hr : Reachable (serverModeStep env yuarelParse) .init s)
    (hrest : AtRest s) :
    ∃ t, Leads env yuarelParse s t ∧ AllEnded t ∧ t.exitHandler = s.exitHandler := by
  generalize hn : remaining s = n
  induction n using Nat.strong_induction_on generalizing s with
  | h n ih =>
      by_cases hall : AllEnded s
      · exact ⟨s, .refl s, hall, rfl⟩
      · obtain ⟨j, w, hj, hopen⟩ : ∃ (j : Nat) (w : Wrapper), s.wrappers[j]? = some w ∧
            w.phase.hasEnded = false := by
          simpa [AllEnded] using hall
        obtain ⟨l, t, hstep, hl, hrest', hlt, -, hexit⟩ :=
          wrapper_proceeds (reachable_serverModeOK hr) hrest hj hopen
        obtain ⟨u, hleads, hu, hexit'⟩ := ih (remaining t) (hn ▸ hlt) (hr.next hstep) hrest' rfl
        exact ⟨u, hleads.step hstep hl, hu, hexit'.trans hexit⟩

theorem exit_ends {s : ServerMode} (hall : AllEnded s) (hspawned : s.exitHandler ≠ .unspawned) :
    ∃ t, Leads env yuarelParse s t ∧ AllEnded t ∧ t.exitHandler = .ended := by
  have hclosed : ∀ s : ServerMode, AllEnded s → s.exitHandler = .closing →
      ∃ t, Leads env yuarelParse s t ∧ AllEnded t ∧ t.exitHandler = .ended :=
    fun s hall hexit => ⟨{ s with exitHandler := .ended },
      (Leads.refl _).step (l := .exitClosed) (if_pos hexit) (by simp), hall, rfl⟩
  cases hexit : s.exitHandler with
  | unspawned => exact absurd hexit hspawned
  | waiting =>
      obtain ⟨t, hleads, ht⟩ := hclosed { s with
        shouldTerminate := true, exitHandler := .closing, closed := s.closed ++ [.server] } hall rfl
      exact ⟨t, hleads.step (l := .exit) (if_pos hexit) (by simp), ht⟩
  | closing => exact hclosed s hall hexit
  | ended => exact ⟨s, .refl s, hall, hexit⟩

/-- Where all clients have ended, the wait for them is over. -/
theorem joinNext_of_allEnded {s : ServerMode} (h : ServerModeOK env yuarelParse s)
    (hall : AllEnded s) : s.joinNext = { s with phase := .joiningExit } := by
  rcases joinNext_cases s with ⟨-, hnext⟩ | ⟨j, hj, -⟩
  · exact hnext
  · obtain ⟨w, hw, hopen⟩ := (h.clients j).mp hj
    rw [hall j w hw] at hopen
    cases hopen

theorem entry_returns {s : ServerMode} (h : ServerModeOK env yuarelParse s) (hall : AllEnded s)
    (hexit : s.exitHandler = .ended) :
    ∃ t, Leads env yuarelParse s t ∧ t.phase = .returned := by
  have hlast : ∀ s : ServerMode, s.phase = .joiningExit → s.exitHandler = .ended →
      ∃ t, Leads env yuarelParse s t ∧ t.phase = .returned := fun s hphase hexit =>
    ⟨{ s with phase := .returned, poolCleanups := s.poolCleanups + 1 },
      (Leads.refl _).step (l := .exitJoined) (if_pos ⟨hphase, hexit⟩) (by simp), rfl⟩
  have hjoined : ∃ t, Leads env yuarelParse s.joinNext t ∧ t.phase = .returned := by
    rw [joinNext_of_allEnded h hall]
    exact hlast _ rfl hexit
  -- what leaves the accept loop keeps what the joins look at
  have hleft : ∀ u : ServerMode, u.phase = .closing → u.clients = s.clients →
      u.exitHandler = .ended → ∃ t, Leads env yuarelParse u t ∧ t.phase = .returned := by
    intro u hphase hclients hexit'
    have hkeys : s.clients.keys = [] := by
      rcases joinNext_cases s with ⟨hkeys, -⟩ | ⟨j, hj, -⟩
      · exact hkeys
      · obtain ⟨w, hw, hopen⟩ := (h.clients j).mp hj
        rw [hall j w hw] at hopen
        cases hopen
    have hnext : u.joinNext = { u with phase := .joiningExit } := by
      unfold ServerMode.joinNext
      rw [hclients, hkeys]
    obtain ⟨t, hleads, ht⟩ := hlast { u with phase := .joiningExit } rfl hexit'
    refine ⟨t, hleads.step (l := .listenerClosed) ?_ (by simp), ht⟩
    exact (if_pos hphase).trans (congrArg some hnext)
  have hphases := h.phase_of_spawned (by rw [hexit]; decide)
  cases hphase : s.phase with
  | listening => exact absurd hphase hphases.1
  | failed => exact absurd hphase hphases.2
  | accepting =>
      obtain ⟨t, hleads, ht⟩ := hleft s.leaveLoop rfl rfl hexit
      exact ⟨t, hleads.step (l := .accept false) (by simp [serverModeStep, hphase]) (by simp), ht⟩
  | handingOver =>
      obtain ⟨n, hlength, hargs⟩ := h.args hphase
      have hn : n ∈ s.raised := by
        have hw := List.getElem?_eq_getElem (l := s.wrappers) (i := n) (by omega)
        refine (h.raised n).mpr ⟨_, hw, fun hspawned => ?_⟩
        have hended := hall n _ hw
        rw [hspawned] at hended
        cases hended
      have hterminate : s.shouldTerminate = true := h.terminate.mpr (Or.inr hexit)
      obtain ⟨t, hleads, ht⟩ := hleft { s with args := none }.leaveLoop rfl rfl hexit
      refine ⟨t, hleads.step (l := .ready) ?_ (by simp), ht⟩
      simp [serverModeStep, hphase, hargs, hn, hterminate]
  | closing =>
      obtain ⟨t, hleads, ht⟩ := hjoined
      exact ⟨t, hleads.step (l := .listenerClosed) (if_pos hphase) (by simp), ht⟩
  | joining j =>
      have hw := List.getElem?_eq_getElem (h.joining j hphase)
      obtain ⟨t, hleads, ht⟩ := hjoined
      refine ⟨t, hleads.step (l := .joined) ?_ (by simp), ht⟩
      simp only [serverModeStep, hphase, hw, Option.any_some, hall j _ hw, if_true]
  | joiningExit => exact hlast s hphase hexit
  | returned => exact ⟨s, .refl s, hphase⟩

theorem running_can_stop {s : ServerMode}
    (hr : Reachable (serverModeStep env yuarelParse) .init s) (hrest : AtRest s)
    (hspawned : s.exitHandler ≠ .unspawned) :
    ∃ t, Leads env yuarelParse s t ∧ t.phase = .returned := by
  obtain ⟨t, hst, hall, hsame⟩ := clients_end hr hrest
  obtain ⟨u, htu, hall', hexit⟩ := exit_ends hall (hsame ▸ hspawned)
  have hleads := hst.trans htu
  obtain ⟨v, huv, hv⟩ := entry_returns (reachable_serverModeOK (hleads.reachable hr)) hall' hexit
  exact ⟨v, hleads.trans huv, hv⟩

/-- The server can always be stopped: from every state in which the sessions are at rest, the
    exit signal and the disconnects of the clients lead to the return of `server_entry`, unless it
    has returned already because it could not listen. -/
theorem server_can_stop {s : ServerMode}
    (hr : Reachable (serverModeStep env yuarelParse) .init s) (hrest : AtRest s) :
    s.phase = .failed ∨ ∃ t, Leads env yuarelParse s t ∧ t.phase = .returned := by
  have h := reachable_serverModeOK hr
  by_cases hexit : s.exitHandler = .unspawned
  · rcases h.unspawned.mp hexit with hphase | hphase
    · right
      have hstep : serverModeStep env yuarelParse s (.listen true) =
          some { s with phase := .accepting, exitHandler := .waiting } := by
        simp only [serverModeStep, hphase, if_true]
      obtain ⟨t, hleads, ht⟩ := running_can_stop (hr.next hstep) hrest (by simp)
      exact ⟨t, hleads.step hstep (by simp), ht⟩
    · exact Or.inl hphase
  · exact Or.inr (running_can_stop hr hrest hexit)

/-- From the state in which a client has connected. -/
theorem one_client_can_stop :
    ∃ s t, run (serverModeStep (fun _ => asciiEnv) asciiUrl) .init
        [.listen true, .accept true] = some s ∧
      Leads (fun _ => asciiEnv) asciiUrl s t ∧ t.phase = .returned := by
  have hrun : ((run (serverModeStep (fun _ => asciiEnv) asciiUrl) .init
      [.listen true, .accept true]).map
      fun s => (s.phase, s.wrappers)) = some (.handingOver, [⟨.spawned, .init⟩]) := rfl
  obtain ⟨s, hs, hfields⟩ := Option.map_eq_some_iff.mp hrun
  obtain ⟨hphase, hwrappers⟩ := Prod.mk.injEq _ _ _ _ |>.mp hfields
  have hr : Reachable (serverModeStep (fun _ => asciiEnv) asciiUrl) .init s := ⟨_, hs⟩
  have hrest : AtRest s := by
    intro j w hj
    rw [hwrappers] at hj
    obtain rfl : w = ⟨.spawned, .init⟩ := List.mem_singleton.mp (List.mem_of_getElem? hj)
    rfl
  obtain ⟨t, hleads, ht⟩ := (server_can_stop hr hrest).resolve_left (by rw [hphase]; decide)
  exact ⟨s, t, hs, hleads, ht⟩

end ServerMode

end BuxnLs.Analysis
