import Nget.CString
import Nget.Lib.SortedMap

/-! The pool of connections (`sockpool.h`, `sockpool.cc`) and the penalties of the servers (`server.h`, `server.cc`).
    A server is what the pool's map is ordered by. A connection has a number of its own, which stands for the pointer to
    it. What the network does to a connection and what the clock gives each time it is read are inputs of the calls. -/

namespace Nget
open CString

/-- The classes of what is thrown. A `FileEx` is none of the `baseCommEx`. -/
inductive PoolEx where
  | fileEx
  | transportExError
  | transportExFatal
deriving DecidableEq

/-- What `close` does with an open connection. The socket is closed whatever it throws. -/
inductive Closing where
  | closes
  | throws (e : PoolEx)
deriving DecidableEq

/-- What becomes of an open connection when the waiting data is read. -/
inductive Draining where
  | stays
  /-- Closed, with an error that is ignored. -/
  | breaks
  /-- Closed, and closing it throws a `FileEx`. -/
  | fileEx
deriving DecidableEq

/-- What a `c_server` has of penalties. -/
structure Penalty where
  penaltyCount : Int32 := 0
  lastPenalty : Int := 0
  penaltyTime : Int := 0

/-- What the configuration says of connections. -/
structure PoolConfig (σ : Type) where
  maxconnections : Int32 := -1
  idletimeout : σ → Int32 := fun _ => 300
  bindaddr : σ → Text := fun _ => []
  penaltystrikes : Int32 := 3
  initialpenalty : Int32 := 180
  /-- A time multiplied by `penaltymultiplier`. -/
  multiplied : Int → Int := fun t => t * 2

/-- `get_bindaddr`. -/
def PoolConfig.getBindaddr {σ : Type} (cfg : PoolConfig σ) (server : σ) (forceBindaddr : Text) : Text :=
  if forceBindaddr.isEmpty then cfg.bindaddr server else forceBindaddr

/-- `Connection`. -/
structure Connection (σ : Type) where
  number : Nat
  lastuse : Int := 0
  bindaddr : Text
  isopen : Bool := true
  server : σ
  serverOk : Bool := false
deriving DecidableEq

namespace Connection
variable {σ : Type}

def age (now : Int) (c : Connection σ) : Int := now - c.lastuse

def touch (now : Int) (c : Connection σ) : Connection σ := { c with lastuse := now }

end Connection

/-- `SockPool`, with the servers' penalties and the number that the next connection gets. -/
structure SockPool (σ : Type) [LT σ] where
  connections : SortedMap σ (Connection σ) := ∅
  penalties : σ → Penalty := fun _ => {}
  next : Nat := 0

/-- The readings of the clock while a holder is constructed. -/
structure HolderTimes (σ : Type) where
  checkPenalized : Int
  /-- Those of `expire_old_connection`, when it is at the connection of a server: for the age of this one and for that
      of the oldest so far. -/
  oldAge : σ → Int
  oldestAge : σ → Int
  penalize : Int
  touch : Int
  /-- Those of `expire_connections`, when it is at the connection of a server. -/
  age : σ → Int

/-- The clock never goes back. -/
structure HolderTimes.InOrder {σ : Type} [LT σ] (times : HolderTimes σ) : Prop where
  checkPenalized : ∀ s, times.checkPenalized ≤ times.oldAge s
  oldAge : ∀ s, times.oldAge s ≤ times.oldestAge s
  oldestAge : ∀ s t, s < t → times.oldestAge s ≤ times.oldAge t
  penalize : ∀ s, times.oldestAge s ≤ times.penalize
  touch : ∀ s, times.oldestAge s ≤ times.touch
  age : ∀ s, times.touch ≤ times.age s
  ages : ∀ s t, s < t → times.age s ≤ times.age t

/-- A construction of a `ConnectionHolder`, with what it meets. -/
structure HolderCall (σ : Type) where
  server : σ
  bindaddr : Text := []
  draining : Draining := .stays
  /-- `new Connection` returns. -/
  connects : Bool := true
  closing : Nat → Closing := fun _ => .closes
  times : HolderTimes σ

namespace SockPool
variable {σ : Type} [LinearOrder σ] (cfg : PoolConfig σ)

/-- `nconfig.penalize`. -/
def penalize (now : Int) (server : σ) (pool : SockPool σ) : Bool × SockPool σ :=
  if cfg.penaltystrikes ≤ 0 then (false, pool)
  else
    let p := pool.penalties server
    let penaltyCount := p.penaltyCount + 1
    let penaltyTime :=
      if penaltyCount = cfg.penaltystrikes then cfg.initialpenalty.toInt
      else if penaltyCount > cfg.penaltystrikes then cfg.multiplied p.penaltyTime
      else p.penaltyTime
    (decide (penaltyCount ≥ cfg.penaltystrikes),
      { pool with penalties := Function.update pool.penalties server ⟨penaltyCount, now, penaltyTime⟩ })

/-- `nconfig.unpenalize`. -/
def unpenalize (server : σ) (pool : SockPool σ) : SockPool σ :=
  { pool with penalties := Function.update pool.penalties server { pool.penalties server with penaltyCount := 0 } }

/-- `nconfig.check_penalized` throws. -/
def penalized (now : Int) (server : σ) (pool : SockPool σ) : Bool :=
  let p := pool.penalties server
  cfg.penaltystrikes > 0 && p.penaltyCount ≥ cfg.penaltystrikes && p.lastPenalty + p.penaltyTime - now > 0

/-- A connection of the pool changed in its place. -/
def set (server : σ) (c : Connection σ) (pool : SockPool σ) : SockPool σ :=
  { pool with connections := pool.connections.assign server c }

/-- `connection_erase`, for the connection under this key. Only a `FileEx` is caught. -/
def connectionErase (closing : Nat → Closing) (server : σ) (pool : SockPool σ) : Option PoolEx × SockPool σ :=
  let erased := { pool with connections := pool.connections.erase server }
  match pool.connections.find? server with
  | none => (none, pool)
  | some (_, c) =>
    if c.isopen then
      match closing c.number with
      | .closes => (none, erased)
      | .throws .fileEx => (none, erased)
      | .throws e => (some e, pool.set server { c with isopen := false })
    else (none, erased)

/-- The loop of `expire_old_connection`. -/
def findOldest (times : HolderTimes σ) : List (σ × Connection σ) → Option (σ × Connection σ) → Option (σ × Connection σ)
  | [], oldest => oldest
  | i :: is, oldest =>
    if !i.2.isopen then some i
    else
      match oldest with
      | none => findOldest times is (some i)
      | some o =>
        if i.2.age (times.oldAge i.1) > o.2.age (times.oldestAge i.1) then findOldest times is (some i)
        else findOldest times is (some o)

/-- `expire_old_connection`. -/
def expireOldConnection (call : HolderCall σ) (pool : SockPool σ) : Option PoolEx × SockPool σ :=
  match findOldest call.times pool.connections.entries none with
  | none => (none, pool)
  | some oldest => pool.connectionErase call.closing oldest.1

/-- `connect`, once there is no connection to the server. -/
def connectNew (call : HolderCall σ) (pool : SockPool σ) : Except PoolEx Nat × SockPool σ :=
  if pool.penalized cfg call.times.checkPenalized call.server then (.error .transportExFatal, pool)
  else
    let full := cfg.maxconnections > 0 && Int32.ofNat pool.connections.entries.length ≥ cfg.maxconnections
    match if full then pool.expireOldConnection call else (none, pool) with
    | (some e, pool) => (.error e, pool)
    | (none, pool) =>
      if !call.connects then (.error .transportExError, (pool.penalize cfg call.times.penalize call.server).2)
      else
        let c : Connection σ :=
          { number := pool.next, bindaddr := cfg.getBindaddr call.server call.bindaddr, server := call.server }
        (.ok c.number, { pool with
          connections := pool.connections.insertNew call.server (c.touch call.times.touch)
          next := pool.next + 1 })

/-- The waiting data of a connection read. -/
def drain (draining : Draining) (c : Connection σ) : Option PoolEx × Connection σ :=
  if c.isopen then
    match draining with
    | .stays => (none, c)
    | .breaks => (none, { c with isopen := false })
    | .fileEx => (some .fileEx, { c with isopen := false })
  else (none, c)

/-- `connect`. -/
def connect (call : HolderCall σ) (pool : SockPool σ) : Except PoolEx Nat × SockPool σ :=
  match pool.connections.find? call.server with
  | none => pool.connectNew cfg call
  | some (_, c) =>
    match drain call.draining c with
    | (some e, c) => (.error e, pool.set call.server c)
    | (none, c) =>
      if c.isopen && c.bindaddr = cfg.getBindaddr call.server call.bindaddr then
        (.ok c.number, pool.set call.server (c.touch call.times.touch))
      else
        match (pool.set call.server c).connectionErase call.closing call.server with
        | (some e, pool) => (.error e, pool)
        | (none, pool) => pool.connectNew cfg call

/-- What `expire_connections` erases. -/
def expired (closeall : Bool) (ages : σ → Int) (i : σ × Connection σ) : Bool :=
  closeall || !i.2.isopen || i.2.age (ages i.1) ≥ (cfg.idletimeout i.2.server).toInt

/-- The loop of `expire_connections` over the connections that are left. -/
def expireConnections (closeall : Bool) (ages : σ → Int) (closing : Nat → Closing) :
    List (σ × Connection σ) → SockPool σ → Option PoolEx × SockPool σ
  | [], pool => (none, pool)
  | i :: is, pool =>
    if expired cfg closeall ages i then
      match pool.connectionErase closing i.1 with
      | (some e, pool) => (some e, pool)
      | (none, pool) => expireConnections closeall ages closing is pool
    else expireConnections closeall ages closing is pool

/-- The constructor of `ConnectionHolder`. -/
def hold (call : HolderCall σ) (pool : SockPool σ) : Except PoolEx Nat × SockPool σ :=
  match pool.connect cfg call with
  | (.error e, pool) => (.error e, pool)
  | (.ok c, pool) =>
    match expireConnections cfg false call.times.age call.closing pool.connections.entries pool with
    | (some e, pool) => (.error e, pool)
    | (none, pool) => (.ok c, pool)

/-- The connection that a pointer points to, unless it is freed. -/
def pointee (number : Nat) (pool : SockPool σ) : Option (σ × Connection σ) :=
  pool.connections.entries.find? fun i => i.2.number = number

/-- `release`, with the readings of the clock by `penalize` and by `touch`. -/
def release (closing : Closing) (penalizeTime touchTime : Int) (connection : Nat) (pool : SockPool σ) :
    Option (Option PoolEx × SockPool σ) :=
  (pool.pointee connection).map fun i =>
    let (keepopen, c, pool) :=
      if i.2.serverOk then (i.2.isopen, { i.2 with serverOk := false }, pool.unpenalize i.2.server)
      else
        let (drop, pool) := pool.penalize cfg penalizeTime i.2.server
        (i.2.isopen && !drop, i.2, pool)
    if keepopen then (none, pool.set i.1 (c.touch touchTime))
    else (pool.set i.1 c).connectionErase (fun _ => closing) c.server

end SockPool

/-! ### Holders -/

/-- The pool, and the connection of the holder if there is one. -/
structure PoolState (σ : Type) [LT σ] where
  pool : SockPool σ := {}
  holder : Option Nat := none

/-- What happens to the pool and to the connection of the holder. -/
inductive PoolStep (σ : Type) where
  | hold (call : HolderCall σ)
  /-- The owner of the holder uses its connection, which may close it and may set `server_ok`. -/
  | use (closes ok : Bool)
  | release (closing : Closing) (penalizeTime touchTime : Int)

namespace PoolState
variable {σ : Type} [LinearOrder σ] (cfg : PoolConfig σ)

/-- One step, which is not defined for a second holder at a time, nor for the use of a connection that is freed. -/
def step (st : PoolState σ) : PoolStep σ → Option (PoolState σ)
  | .hold call =>
    if st.holder.isSome then none
    else
      match st.pool.hold cfg call with
      | (.ok c, pool) => some ⟨pool, some c⟩
      | (.error _, pool) => some ⟨pool, none⟩
  | .use closes ok =>
    st.holder.bind fun connection => (st.pool.pointee connection).map fun i =>
      { st with pool := st.pool.set i.1 { i.2 with isopen := i.2.isopen && !closes, serverOk := i.2.serverOk || ok } }
  | .release closing penalizeTime touchTime =>
    st.holder.bind fun connection =>
      (st.pool.release cfg closing penalizeTime touchTime connection).map fun out => ⟨out.2, none⟩

def runs : List (PoolStep σ) → PoolState σ → Option (PoolState σ)
  | [], st => some st
  | s :: steps, st => (st.step cfg s).bind (runs steps)

end PoolState
end Nget
