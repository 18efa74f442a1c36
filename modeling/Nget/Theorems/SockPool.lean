import Nget.SockPool
import Mathlib

/-! Connections that stay. The pool is a map by server and `connect` makes room before it adds, so the number of
    connections is never above the limit (`Inv`). What the constructor of a holder hands out stays in the pool exactly
    when `expire_connections`, which comes right after, reads the clock early enough (`Timely`), and a run is safe as
    long as all its constructions are. -/

namespace Nget

namespace SockPool
variable {σ : Type} [LinearOrder σ] {cfg : PoolConfig σ} {call : HolderCall σ} {pool : SockPool σ} {server : σ}
  {c : Connection σ}

def size (pool : SockPool σ) : Nat := pool.connections.entries.length

/-- What holds of the pool between two calls. -/
structure Inv (cfg : PoolConfig σ) (pool : SockPool σ) : Prop where
  server : ∀ e ∈ pool.connections, e.2.server = e.1
  old : ∀ e ∈ pool.connections, e.2.number < pool.next
  once : ∀ e ∈ pool.connections, ∀ e' ∈ pool.connections, e.2.number = e'.2.number → e = e'
  limit : 0 < cfg.maxconnections → (pool.size : Int) ≤ cfg.maxconnections.toInt

/-! ### Connections changed, erased and added -/

theorem Inv.congr {pool' : SockPool σ} (h : pool.Inv cfg) (hconnections : pool'.connections = pool.connections)
    (hnext : pool'.next = pool.next) : pool'.Inv cfg := by
  cases pool
  cases pool'
  cases hconnections
  cases hnext
  exact ⟨h.server, h.old, h.once, h.limit⟩

theorem length_assign {m : SortedMap σ (Connection σ)} : (m.assign server c).entries.length +
    (if (m.find? server).isSome then 1 else 0) = m.entries.length + 1 := by
  have hsum := @SortedMap.sumValues_assign σ (Connection σ) _ m server c Nat _ (fun _ => 1)
  unfold SortedMap.sumValues at hsum
  simp only [List.map_const', List.sum_replicate, smul_eq_mul, mul_one] at hsum
  rw [← hsum]
  cases m.find? server <;> rfl

theorem Inv.set {c' : Connection σ} (h : pool.Inv cfg) (hc : (server, c) ∈ pool.connections) (hserver : c'.server = c.server)
    (hnumber : c'.number = c.number) : (pool.set server c').Inv cfg := by
  have hmem : ∀ {e}, e ∈ (pool.set server c').connections → e = (server, c') ∨ e ∈ pool.connections ∧ e.1 ≠ server :=
    fun he => SortedMap.mem_assign.mp he
  -- an entry of the new pool is one of the old pool's, with the same server and number
  have hold : ∀ e ∈ (pool.set server c').connections, ∃ e₀ ∈ pool.connections,
      e₀.1 = e.1 ∧ e₀.2.server = e.2.server ∧ e₀.2.number = e.2.number := by
    intro e he
    rcases hmem he with rfl | ⟨he, -⟩
    · exact ⟨(server, c), hc, rfl, hserver.symm, hnumber.symm⟩
    · exact ⟨e, he, rfl, rfl, rfl⟩
  refine ⟨fun e he => ?_, fun e he => ?_, fun e he e' he' heq => ?_, fun hmax => ?_⟩
  · obtain ⟨e₀, he₀, hkey, hs, -⟩ := hold e he
    rw [← hs, ← hkey]
    exact h.server e₀ he₀
  · obtain ⟨e₀, he₀, -, -, hn⟩ := hold e he
    rw [← hn]
    exact h.old e₀ he₀
  · obtain ⟨e₀, he₀, hkey, -, hn⟩ := hold e he
    obtain ⟨e₀', he₀', hkey', -, hn'⟩ := hold e' he'
    have hsame := h.once e₀ he₀ e₀' he₀' (by rw [hn, hn', heq])
    exact SortedMap.eq_of_mem he he' (by rw [← hkey, ← hkey', hsame])
  · have hlen := @length_assign σ _ server c' pool.connections
    have hfind : pool.connections.find? server = some (server, c) := SortedMap.find?_eq_some_iff.mpr ⟨hc, rfl⟩
    rw [hfind] at hlen
    have hsize : (pool.set server c').size = pool.size := Nat.add_right_cancel hlen
    rw [hsize]
    exact h.limit hmax

theorem length_erase (h : (server, c) ∈ pool.connections) :
    (pool.connections.erase server).entries.length < pool.connections.entries.length :=
  List.length_filter_lt_length_iff_exists.mpr ⟨(server, c), h, by simp⟩

theorem Inv.erase (h : pool.Inv cfg) : Inv cfg { pool with connections := pool.connections.erase server } where
  server e he := h.server e (SortedMap.mem_erase.mp he).1
  old e he := h.old e (SortedMap.mem_erase.mp he).1
  once e he e' he' := h.once e (SortedMap.mem_erase.mp he).1 e' (SortedMap.mem_erase.mp he').1
  limit hmax := le_trans (Int.ofNat_le.mpr (List.length_filter_le _ _)) (h.limit hmax)

/-- What is erased is gone, or stays because closing it throws. -/
theorem connectionErase_cases {closing : Nat → Closing} (hc : (server, c) ∈ pool.connections) :
    pool.connectionErase closing server = (none, { pool with connections := pool.connections.erase server }) ∨
      ∃ e, pool.connectionErase closing server = (some e, pool.set server { c with isopen := false }) := by
  have hfind : pool.connections.find? server = some (server, c) := SortedMap.find?_eq_some_iff.mpr ⟨hc, rfl⟩
  unfold connectionErase
  rw [hfind]
  dsimp only
  by_cases hopen : c.isopen = true
  · rw [if_pos hopen]
    cases closing c.number with
    | closes => exact Or.inl rfl
    | throws e =>
      cases e with
      | fileEx => exact Or.inl rfl
      | transportExError => exact Or.inr ⟨_, rfl⟩
      | transportExFatal => exact Or.inr ⟨_, rfl⟩
  · rw [if_neg hopen]
    exact Or.inl rfl

theorem Inv.connectionErase {closing : Nat → Closing} (h : pool.Inv cfg) (hc : (server, c) ∈ pool.connections) :
    (pool.connectionErase closing server).2.Inv cfg := by
  rcases @connectionErase_cases σ _ pool server c closing hc with heq | ⟨e, heq⟩
  · rw [heq]
    exact h.erase
  · rw [heq]
    exact h.set hc rfl rfl

/-! ### Making room -/

omit [LinearOrder σ] in
theorem findOldest_mem {times : HolderTimes σ} : ∀ (is : List (σ × Connection σ)) (oldest : Option (σ × Connection σ)),
    (is ≠ [] ∨ oldest.isSome = true) → ∃ i, findOldest times is oldest = some i ∧ (i ∈ is ∨ oldest = some i)
  | [], oldest, h => by
    obtain ⟨i, hi⟩ := Option.isSome_iff_exists.mp (h.resolve_left fun hnil => hnil rfl)
    exact ⟨i, hi, Or.inr hi⟩
  | i :: is, oldest, _ => by
    have hnext : ∀ o, (o = i ∨ oldest = some o) →
        ∃ j, findOldest times is (some o) = some j ∧ (j ∈ i :: is ∨ oldest = some j) := by
      intro o ho
      obtain ⟨j, hj, hmem⟩ := findOldest_mem is (some o) (Or.inr rfl)
      refine ⟨j, hj, ?_⟩
      rcases hmem with hmem | hmem
      · exact Or.inl (List.mem_cons_of_mem _ hmem)
      · obtain rfl := Option.some.inj hmem
        refine ho.imp_left fun h => ?_
        rw [h]
        exact List.mem_cons_self
    unfold findOldest
    split
    · exact ⟨i, rfl, Or.inl List.mem_cons_self⟩
    · cases oldest with
      | none => exact hnext i (Or.inl rfl)
      | some o =>
        dsimp only
        split
        · exact hnext i (Or.inl rfl)
        · exact hnext o (Or.inr rfl)

theorem expireOldConnection_eq (hsize : 0 < pool.size) : ∃ i ∈ pool.connections,
    pool.expireOldConnection call = pool.connectionErase call.closing i.1 := by
  have hne : pool.connections.entries ≠ [] := List.length_pos_iff.mp hsize
  obtain ⟨i, hi, hmem⟩ := @findOldest_mem σ call.times pool.connections.entries none (Or.inl hne)
  have hi' : i ∈ pool.connections := hmem.resolve_right (by simp)
  refine ⟨i, hi', ?_⟩
  unfold expireOldConnection
  rw [hi]

/-! ### Connecting -/

/-- The connection to the server is open and was touched just now. -/
def Acquired (call : HolderCall σ) (number : Nat) (pool : SockPool σ) : Prop :=
  ∃ c, (call.server, c) ∈ pool.connections ∧ c.number = number ∧ c.isopen = true ∧ c.lastuse = call.times.touch

/-- There is a place for one more connection. -/
def Room (cfg : PoolConfig σ) (pool : SockPool σ) : Prop :=
  0 < cfg.maxconnections → (pool.size : Int) < cfg.maxconnections.toInt

theorem insertNew_eq (hnone : pool.connections.find? server = none) :
    pool.connections.insertNew server c = pool.connections.assign server c := by
  unfold SortedMap.insertNew
  rw [hnone]

theorem Inv.insertNew (h : pool.Inv cfg) (hroom : pool.Room cfg) (hnone : pool.connections.find? server = none)
    (hserver : c.server = server) (hnumber : c.number = pool.next) :
    Inv cfg { pool with connections := pool.connections.insertNew server c, next := pool.next + 1 } := by
  rw [insertNew_eq hnone]
  have hmem : ∀ {e}, e ∈ pool.connections.assign server c → e = (server, c) ∨ e ∈ pool.connections ∧ e.1 ≠ server :=
    fun he => SortedMap.mem_assign.mp he
  refine ⟨fun e he => ?_, fun e he => ?_, fun e he e' he' heq => ?_, fun hmax => ?_⟩
  · rcases hmem he with rfl | ⟨he, -⟩
    · exact hserver
    · exact h.server e he
  · rcases hmem he with rfl | ⟨he, -⟩
    · rw [hnumber]
      exact Nat.lt_succ_self _
    · exact (h.old e he).trans (Nat.lt_succ_self _)
  · rcases hmem he with rfl | ⟨he, -⟩
    · rcases hmem he' with rfl | ⟨he', -⟩
      · rfl
      · exact absurd (h.old e' he') (by rw [← heq, hnumber]; exact lt_irrefl _)
    · rcases hmem he' with rfl | ⟨he', -⟩
      · exact absurd (h.old e he) (by rw [heq, hnumber]; exact lt_irrefl _)
      · exact h.once e he e' he' heq
  · have hlen := @length_assign σ _ server c pool.connections
    rw [hnone] at hlen
    have hsize : size { pool with connections := pool.connections.assign server c, next := pool.next + 1 } =
        pool.size + 1 := hlen
    rw [hsize, Int.natCast_succ]
    exact hroom hmax

theorem penalize_connections {now : Int} : (pool.penalize cfg now server).2.connections = pool.connections ∧
    (pool.penalize cfg now server).2.next = pool.next := by
  unfold penalize
  split
  · exact ⟨rfl, rfl⟩
  · exact ⟨rfl, rfl⟩

/-- As the limit is an `int`, the number of connections is one. -/
theorem Inv.full_iff (h : pool.Inv cfg) (hmax : 0 < cfg.maxconnections) :
    Int32.ofNat pool.connections.entries.length ≥ cfg.maxconnections ↔ cfg.maxconnections.toInt ≤ pool.size := by
  have hlimit := h.limit hmax
  have hlt := cfg.maxconnections.toInt_lt
  have hsize : (Int32.ofNat pool.size).toInt = pool.size := Int32.toInt_ofNat_of_lt (by omega)
  rw [ge_iff_le, Int32.le_iff_toInt_le, ← hsize]
  rfl

/-- When the pool is full, a connection is erased first. -/
theorem makeRoom {p : Option PoolEx × SockPool σ} (h : pool.Inv cfg) (hnone : pool.connections.find? call.server = none)
    (hp : p = if (cfg.maxconnections > 0 && Int32.ofNat pool.connections.entries.length ≥ cfg.maxconnections) = true then
      pool.expireOldConnection call else (none, pool)) :
    p.2.Inv cfg ∧ p.2.connections.find? call.server = none ∧ (p.1 = none → p.2.Room cfg) := by
  split at hp
  · next hfull =>
    rw [Bool.and_eq_true, decide_eq_true_eq, decide_eq_true_eq] at hfull
    obtain ⟨hmax, hfull⟩ := hfull
    have hlimit := h.limit hmax
    have hpos : (0 : Int) < cfg.maxconnections.toInt := Int32.lt_iff_toInt_lt.mp hmax
    rw [h.full_iff hmax] at hfull
    obtain ⟨⟨s, c⟩, hi, heq⟩ := @expireOldConnection_eq σ _ call pool (by omega)
    rw [heq] at hp
    have hne : s ≠ call.server := fun hs => SortedMap.find?_eq_none_iff.mp hnone (s, c) hi hs
    rcases @connectionErase_cases σ _ pool s c call.closing hi with herase | ⟨e, herase⟩
    · rw [herase] at hp
      subst hp
      refine ⟨h.erase, ?_, fun _ _ => ?_⟩
      · exact SortedMap.find?_eq_none_iff.mpr fun x hx =>
          SortedMap.find?_eq_none_iff.mp hnone x (SortedMap.mem_erase.mp hx).1
      · exact lt_of_lt_of_le (Int.ofNat_lt.mpr (length_erase hi)) hlimit
    · rw [herase] at hp
      subst hp
      refine ⟨h.set hi rfl rfl, ?_, fun hthrown => by cases hthrown⟩
      refine (SortedMap.find?_assign).trans ?_
      rw [if_neg hne.symm, hnone]
  · next hfull =>
    subst hp
    refine ⟨h, hnone, fun _ hmax => ?_⟩
    rw [Bool.and_eq_true, decide_eq_true_eq, decide_eq_true_eq, not_and, h.full_iff hmax] at hfull
    exact lt_of_not_ge (hfull hmax)

theorem connectNew_spec (h : pool.Inv cfg) (hnone : pool.connections.find? call.server = none) :
    (pool.connectNew cfg call).2.Inv cfg ∧
      ∀ {number}, (pool.connectNew cfg call).1 = .ok number → (pool.connectNew cfg call).2.Acquired call number := by
  obtain ⟨p, hp⟩ : ∃ p, p = if (cfg.maxconnections > 0 && Int32.ofNat pool.connections.entries.length ≥ cfg.maxconnections) =
    true then pool.expireOldConnection call else (none, pool) := ⟨_, rfl⟩
  obtain ⟨hinv, hnone', hroom⟩ := makeRoom h hnone hp
  unfold connectNew
  split
  · exact ⟨h, fun hok => by cases hok⟩
  · dsimp only
    rw [← hp]
    obtain ⟨thrown, pool'⟩ := p
    cases thrown with
    | some e => exact ⟨hinv, fun hok => by cases hok⟩
    | none =>
      dsimp only at hinv hnone' hroom ⊢
      split
      · exact ⟨hinv.congr penalize_connections.1 penalize_connections.2, fun hok => by cases hok⟩
      · refine ⟨hinv.insertNew (hroom rfl) hnone' rfl rfl, fun hok => ?_⟩
        cases hok
        rw [insertNew_eq hnone']
        exact ⟨_, SortedMap.mem_assign.mpr (Or.inl rfl), rfl, rfl, rfl⟩

omit [LinearOrder σ] in
theorem drain_eq {draining : Draining} : (drain draining c).2 = c ∨ (drain draining c).2 = { c with isopen := false } := by
  unfold drain
  split
  · cases draining with
    | stays => exact Or.inl rfl
    | breaks => exact Or.inr rfl
    | fileEx => exact Or.inr rfl
  · exact Or.inl rfl

theorem connect_spec (h : pool.Inv cfg) : (pool.connect cfg call).2.Inv cfg ∧
    ∀ {number}, (pool.connect cfg call).1 = .ok number → (pool.connect cfg call).2.Acquired call number := by
  unfold connect
  cases hfind : pool.connections.find? call.server with
  | none => exact connectNew_spec h hfind
  | some i =>
    obtain ⟨key, c⟩ := i
    obtain ⟨hmem, hkey⟩ := SortedMap.find?_eq_some_iff.mp hfind
    obtain rfl : key = call.server := hkey
    -- what reading the waiting data does to the connection
    have hdrain : (drain call.draining c).2.server = c.server ∧ (drain call.draining c).2.number = c.number := by
      rcases @drain_eq σ c call.draining with heq | heq <;> rw [heq] <;> exact ⟨rfl, rfl⟩
    have hset := h.set hmem hdrain.1 hdrain.2
    dsimp only
    generalize drain call.draining c = d at hdrain hset ⊢
    obtain ⟨thrown, c'⟩ := d
    cases thrown with
    | some e => exact ⟨hset, fun hok => by cases hok⟩
    | none =>
      dsimp only at hdrain hset ⊢
      split
      · next hreuse =>
        rw [Bool.and_eq_true] at hreuse
        refine ⟨h.set hmem hdrain.1 hdrain.2, fun hok => ?_⟩
        cases hok
        exact ⟨c'.touch call.times.touch, SortedMap.mem_assign.mpr (Or.inl rfl), rfl, hreuse.1, rfl⟩
      · have hmem' : (call.server, c') ∈ (pool.set call.server c').connections := SortedMap.mem_assign.mpr (Or.inl rfl)
        rcases @connectionErase_cases σ _ _ call.server c' call.closing hmem' with herase | ⟨e, herase⟩
        · rw [herase]
          refine connectNew_spec hset.erase (SortedMap.find?_eq_none_iff.mpr fun x hx => ?_)
          exact (SortedMap.mem_erase.mp hx).2
        · rw [herase]
          exact ⟨hset.set hmem' rfl rfl, fun hok => by cases hok⟩

/-! ### Expiring -/

/-- `expire_connections` erases what is expired, and nothing else, unless it throws. -/
theorem expireConnections_spec {closeall : Bool} {ages : σ → Int} {closing : Nat → Closing} :
    ∀ (is : List (σ × Connection σ)) (pool : SockPool σ), is.Pairwise (fun i j => i.1 < j.1) →
    (∀ i ∈ is, i ∈ pool.connections) →
    pool.Inv cfg → (expireConnections cfg closeall ages closing is pool).2.Inv cfg ∧
      ((expireConnections cfg closeall ages closing is pool).1 = none → ∀ e,
        (e ∈ (expireConnections cfg closeall ages closing is pool).2.connections ↔
          e ∈ pool.connections ∧ (e ∈ is → expired cfg closeall ages e = false)))
  | [], pool, _, _, h => ⟨h, fun _ e => by simp [expireConnections]⟩
  | i :: is, pool, hsorted, his, h => by
    obtain ⟨hhead, htail⟩ := List.pairwise_cons.mp hsorted
    have hi := his i List.mem_cons_self
    have hothers : ∀ j ∈ is, j ∈ pool.connections := fun j hj => his j (List.mem_cons_of_mem _ hj)
    unfold expireConnections
    by_cases hexpired : expired cfg closeall ages i = true
    · rw [if_pos hexpired]
      rcases @connectionErase_cases σ _ pool i.1 i.2 closing hi with herase | ⟨e, herase⟩
      · rw [herase]
        have hleft : ∀ j ∈ is, j ∈ pool.connections.erase i.1 := fun j hj =>
          SortedMap.mem_erase.mpr ⟨hothers j hj, (hhead j hj).ne'⟩
        obtain ⟨hinv, hmem⟩ := expireConnections_spec is _ htail hleft h.erase
        refine ⟨hinv, fun hnone e => (hmem hnone e).trans ?_⟩
        show e ∈ pool.connections.erase i.1 ∧ _ ↔ _
        rw [SortedMap.mem_erase]
        constructor
        · rintro ⟨⟨he, hne⟩, hkeep⟩
          refine ⟨he, fun hmem => hkeep ((List.mem_cons.mp hmem).resolve_left ?_)⟩
          rintro rfl
          exact hne rfl
        · rintro ⟨he, hkeep⟩
          refine ⟨⟨he, fun hkey => ?_⟩, fun hmem => hkeep (List.mem_cons_of_mem _ hmem)⟩
          rw [SortedMap.eq_of_mem he hi hkey] at hkeep
          rw [hkeep List.mem_cons_self] at hexpired
          cases hexpired
      · rw [herase]
        exact ⟨h.set hi rfl rfl, fun hnone => by cases hnone⟩
    · rw [if_neg hexpired]
      obtain ⟨hinv, hmem⟩ := expireConnections_spec is pool htail hothers h
      refine ⟨hinv, fun hnone e => (hmem hnone e).trans (and_congr_right fun _ => ?_)⟩
      rw [Bool.not_eq_true] at hexpired
      constructor
      · intro hkeep he
        rcases List.mem_cons.mp he with rfl | he
        · exact hexpired
        · exact hkeep he
      · exact fun hkeep he => hkeep (List.mem_cons_of_mem _ he)

/-- When `expire_connections` comes to the connection that `connect` has touched, the server's idle time is not over. -/
def Young (cfg : PoolConfig σ) (call : HolderCall σ) : Prop :=
  call.times.age call.server - call.times.touch < (cfg.idletimeout call.server).toInt

/-- The connection that the constructor of a holder hands out is in the pool exactly when it is too young to expire. -/
theorem hold_spec (h : pool.Inv cfg) : (pool.hold cfg call).2.Inv cfg ∧ ∀ {number}, (pool.hold cfg call).1 = .ok number →
    ((∃ e ∈ (pool.hold cfg call).2.connections, e.2.number = number) ↔ Young cfg call) := by
  obtain ⟨hinv, hacquired⟩ := @connect_spec σ _ cfg call pool h
  unfold hold
  generalize pool.connect cfg call = out at hinv hacquired ⊢
  obtain ⟨thrown, pool'⟩ := out
  cases thrown with
  | error e => exact ⟨hinv, fun hok => by cases hok⟩
  | ok number =>
    obtain ⟨c, hc, hnumber, hopen, htouch⟩ := hacquired rfl
    obtain ⟨hinv', hmem⟩ := @expireConnections_spec σ _ cfg false call.times.age call.closing pool'.connections.entries pool'
      pool'.connections.sorted (fun _ hi => hi) hinv
    dsimp only at hc hinv ⊢
    generalize expireConnections cfg false call.times.age call.closing pool'.connections.entries pool' = res at hinv' hmem ⊢
    obtain ⟨e, pool''⟩ := res
    cases e with
    | some e => exact ⟨hinv', fun hok => by cases hok⟩
    | none =>
      refine ⟨hinv', fun hok => ?_⟩
      cases hok
      have hserver : c.server = call.server := hinv.server _ hc
      have hyoung : expired cfg false call.times.age (call.server, c) = false ↔ Young cfg call := by
        unfold expired Young Connection.age
        rw [hopen, htouch, hserver]
        simp
      rw [← hyoung]
      constructor
      · rintro ⟨e, he, heq⟩
        obtain ⟨he, hkeep⟩ := (hmem rfl e).mp he
        obtain rfl := hinv.once e he _ hc (heq.trans hnumber.symm)
        exact hkeep he
      · intro hkeep
        exact ⟨_, (hmem rfl _).mpr ⟨hc, fun _ => hkeep⟩, hnumber⟩

/-! ### Using and releasing -/

theorem pointee_eq_some {number : Nat} {i : σ × Connection σ} (h : pool.pointee number = some i) :
    i ∈ pool.connections ∧ i.2.number = number :=
  ⟨List.mem_of_find?_eq_some h, by simpa using List.find?_some h⟩

theorem release_inv {closing : Closing} {penalizeTime touchTime : Int} {number : Nat} {out : Option PoolEx × SockPool σ}
    (h : pool.Inv cfg) (hout : pool.release cfg closing penalizeTime touchTime number = some out) : out.2.Inv cfg := by
  obtain ⟨i, hi, rfl⟩ := Option.map_eq_some_iff.mp hout
  obtain ⟨hmem, -⟩ := pointee_eq_some hi
  -- the penalties change, the connection may lose its flag, and it is touched or erased
  have hrest : ∀ (keepopen : Bool) (c : Connection σ) (pool' : SockPool σ), c.server = i.2.server → c.number = i.2.number →
      pool'.connections = pool.connections → pool'.next = pool.next →
      (if keepopen then ((none, pool'.set i.1 (c.touch touchTime)) : Option PoolEx × SockPool σ)
        else (pool'.set i.1 c).connectionErase (fun _ => closing) c.server).2.Inv cfg := by
    intro keepopen c pool' hserver hnumber hconnections hnext
    have hinv := h.congr hconnections hnext
    rw [← hconnections] at hmem
    cases keepopen with
    | true => exact hinv.set hmem hserver hnumber
    | false =>
      have hkey : c.server = i.1 := hserver.trans (hinv.server i hmem)
      have hmem' : (c.server, c) ∈ (pool'.set i.1 c).connections := SortedMap.mem_assign.mpr (Or.inl (by rw [hkey]))
      rw [if_neg (by decide)]
      exact (hinv.set hmem hserver hnumber).connectionErase hmem'
  by_cases hok : i.2.serverOk = true
  · rw [if_pos hok]
    exact hrest _ { i.2 with serverOk := false } (pool.unpenalize i.2.server) rfl rfl rfl rfl
  · rw [if_neg hok]
    exact hrest _ i.2 (pool.penalize cfg penalizeTime i.2.server).2 rfl rfl penalize_connections.1 penalize_connections.2

end SockPool

/-! ### Runs -/

/-- A construction that returns takes the age of its own connection before the idle time is over. -/
def PoolStep.Timely {σ : Type} [LinearOrder σ] (cfg : PoolConfig σ) (st : PoolState σ) : PoolStep σ → Prop
  | .hold call => st.holder = none → (∃ number, (st.pool.hold cfg call).1 = .ok number) → SockPool.Young cfg call
  | _ => True

namespace PoolState
variable {σ : Type} [LinearOrder σ] {cfg : PoolConfig σ} {st st' : PoolState σ} {s : PoolStep σ}

def Held (st : PoolState σ) : Prop := ∀ number, st.holder = some number → ∃ e ∈ st.pool.connections, e.2.number = number

/-- At most one connection for each server, at most `maxconnections` connections if there is a limit, and the holder's
    connection among them. -/
structure Safe (cfg : PoolConfig σ) (st : PoolState σ) : Prop where
  server : ∀ e ∈ st.pool.connections, ∀ e' ∈ st.pool.connections, e.2.server = e'.2.server → e = e'
  limit : 0 < cfg.maxconnections → (st.pool.size : Int) ≤ cfg.maxconnections.toInt
  held : st.Held
  /-- The numbers stand for pointers. -/
  once : ∀ e ∈ st.pool.connections, ∀ e' ∈ st.pool.connections, e.2.number = e'.2.number → e = e'

theorem safe_iff (h : st.pool.Inv cfg) : st.Safe cfg ↔ st.Held := by
  refine ⟨Safe.held, fun held => ⟨fun e he e' he' heq => ?_, h.limit, held, h.once⟩⟩
  rw [h.server e he, h.server e' he'] at heq
  exact SortedMap.eq_of_mem he he' heq

/-- A step keeps the pool's invariant, and its holder's connection is in the pool exactly when the step is timely. -/
theorem step_spec (h : st.pool.Inv cfg) (hstep : st.step cfg s = some st') :
    st'.pool.Inv cfg ∧ (st'.Held ↔ s.Timely cfg st) := by
  cases s with
  | hold call =>
    obtain ⟨hinv, hheld⟩ := @SockPool.hold_spec σ _ cfg call st.pool h
    unfold step at hstep
    dsimp only at hstep
    split at hstep
    · cases hstep
    · next hnone =>
      have hholder : st.holder = none := Option.not_isSome_iff_eq_none.mp hnone
      unfold PoolStep.Timely
      dsimp only
      generalize st.pool.hold cfg call = out at hstep hinv hheld ⊢
      obtain ⟨res, pool⟩ := out
      cases res with
      | error e =>
        cases hstep
        refine ⟨hinv, fun _ _ hok => ?_, fun _ number hnumber => by cases hnumber⟩
        obtain ⟨number, hok⟩ := hok
        cases hok
      | ok number =>
        cases hstep
        refine ⟨hinv, fun held _ _ => (hheld rfl).mp (held number rfl), fun htimely n hn => ?_⟩
        cases hn
        exact (hheld rfl).mpr (htimely hholder ⟨number, rfl⟩)
  | use closes ok =>
    obtain ⟨number, hnumber, hstep⟩ := Option.bind_eq_some_iff.mp hstep
    obtain ⟨i, hi, rfl⟩ := Option.map_eq_some_iff.mp hstep
    obtain ⟨hmem, hi⟩ := SockPool.pointee_eq_some hi
    refine ⟨h.set hmem rfl rfl, fun _ => trivial, fun _ n hn => ?_⟩
    have hsame : n = number := Option.some.inj (hn.symm.trans hnumber)
    exact ⟨_, SortedMap.mem_assign.mpr (Or.inl rfl), hi.trans hsame.symm⟩
  | release closing penalizeTime touchTime =>
    obtain ⟨number, -, hstep⟩ := Option.bind_eq_some_iff.mp hstep
    obtain ⟨out, hout, rfl⟩ := Option.map_eq_some_iff.mp hstep
    exact ⟨SockPool.release_inv h hout, fun _ => trivial, fun _ n hn => by cases hn⟩

theorem timely_of_none (h : st.step cfg s = none) : s.Timely cfg st := by
  cases s with
  | hold call =>
    intro hholder
    unfold step at h
    dsimp only at h
    rw [if_neg (by simp [hholder])] at h
    split at h <;> cases h
  | use closes ok => trivial
  | release closing penalizeTime touchTime => trivial

/-- The states that a run reaches are its first one and those of the run behind its first step. -/
theorem forall_reached_cons {steps : List (PoolStep σ)} {P : PoolState σ → Prop} :
    (∀ pre st', pre <+: s :: steps → runs cfg pre st = some st' → P st') ↔
      P st ∧ ∀ st₁, st.step cfg s = some st₁ → ∀ pre st', pre <+: steps → runs cfg pre st₁ = some st' → P st' := by
  constructor
  · refine fun h => ⟨h [] st List.nil_prefix rfl, fun st₁ hstep pre st' hpre hrun => ?_⟩
    refine h (s :: pre) st' (List.cons_prefix_cons.mpr ⟨rfl, hpre⟩) ?_
    rw [runs, hstep]
    exact hrun
  · rintro ⟨hfirst, hrest⟩ pre st' hpre hrun
    rcases List.prefix_cons_iff.mp hpre with rfl | ⟨pre, rfl, htail⟩
    · cases hrun
      exact hfirst
    · obtain ⟨st₁, hstep, hrun⟩ := Option.bind_eq_some_iff.mp hrun
      exact hrest st₁ hstep pre st' htail hrun

theorem forall_steps_cons {steps : List (PoolStep σ)} {Q : PoolStep σ → PoolState σ → Prop} :
    (∀ pre s' st', pre ++ [s'] <+: s :: steps → runs cfg pre st = some st' → Q s' st') ↔
      Q s st ∧ ∀ st₁, st.step cfg s = some st₁ → ∀ pre s' st', pre ++ [s'] <+: steps → runs cfg pre st₁ = some st' →
        Q s' st' := by
  constructor
  · refine fun h => ⟨h [] s st (List.cons_prefix_cons.mpr ⟨rfl, List.nil_prefix⟩) rfl, fun st₁ hstep pre s' st' hpre hrun => ?_⟩
    refine h (s :: pre) s' st' (List.cons_prefix_cons.mpr ⟨rfl, hpre⟩) ?_
    rw [runs, hstep]
    exact hrun
  · rintro ⟨hfirst, hrest⟩ pre s' st' hpre hrun
    cases pre with
    | nil =>
      cases hrun
      obtain ⟨rfl, -⟩ := List.cons_prefix_cons.mp hpre
      exact hfirst
    | cons s₁ pre =>
      obtain ⟨rfl, htail⟩ := List.cons_prefix_cons.mp hpre
      obtain ⟨st₁, hstep, hrun⟩ := Option.bind_eq_some_iff.mp hrun
      exact hrest st₁ hstep pre s' st' htail hrun

/-- From a state that is safe, a run is safe in every state that it reaches exactly when its constructions are timely. -/
theorem runs_safe_iff : ∀ (steps : List (PoolStep σ)) (st : PoolState σ), st.pool.Inv cfg → st.Held →
    ((∀ pre st', pre <+: steps → runs cfg pre st = some st' → st'.Safe cfg) ↔
      ∀ pre s st', pre ++ [s] <+: steps → runs cfg pre st = some st' → s.Timely cfg st')
  | [], st, h, held => by
    constructor
    · intro _ pre s st' hpre
      exact absurd (List.prefix_nil.mp hpre) (by simp)
    · intro _ pre st' hpre hrun
      rw [List.prefix_nil.mp hpre] at hrun
      cases hrun
      exact (safe_iff h).mpr held
  | s :: steps, st, h, held => by
    rw [forall_reached_cons, forall_steps_cons, and_iff_right ((safe_iff h).mpr held)]
    cases hstep : st.step cfg s with
    | none =>
      refine ⟨fun _ => ⟨timely_of_none hstep, fun st₁ h₁ => ?_⟩, fun _ st₁ h₁ => ?_⟩
      · cases h₁
      · cases h₁
    | some st₁ =>
      obtain ⟨hinv, hheld⟩ := step_spec h hstep
      by_cases htimely : s.Timely cfg st
      · rw [and_iff_right htimely]
        have ih := runs_safe_iff steps st₁ hinv (hheld.mpr htimely)
        constructor
        · rintro hsafe _ ⟨⟩
          exact ih.mp (hsafe st₁ rfl)
        · rintro htimelies _ ⟨⟩
          exact ih.mpr (htimelies st₁ rfl)
      · refine ⟨fun hsafe => ?_, fun hall => absurd hall.1 htimely⟩
        exact absurd (hheld.mp (hsafe st₁ rfl [] st₁ List.nil_prefix rfl).held) htimely

end PoolState

/-- In a run from an empty pool, with any servers and limits, errors and readings of the clock, there is never more than one
    connection to a server or more than `maxconnections`, and a holder's connection stays until it is released, if and
    only if each construction is timely. -/
theorem sockPool_safe_iff {σ : Type} [LinearOrder σ] (cfg : PoolConfig σ) (steps : List (PoolStep σ)) :
    (∀ pre st, pre <+: steps → PoolState.runs cfg pre {} = some st → st.Safe cfg) ↔
      ∀ pre s st, pre ++ [s] <+: steps → PoolState.runs cfg pre {} = some st → s.Timely cfg st := by
  have hinv : SockPool.Inv cfg ({} : SockPool σ) :=
    { server := fun e he => absurd he SortedMap.not_mem_empty
      old := fun e he => absurd he SortedMap.not_mem_empty
      once := fun e he => absurd he SortedMap.not_mem_empty
      limit := fun hmax => (Int32.lt_iff_toInt_lt.mp hmax).le }
  exact PoolState.runs_safe_iff steps {} hinv fun number hnumber => by cases hnumber

/-- The next second begins between `touch` and `expire_connections`. -/
def lateCall : HolderCall Nat where
  server := 0
  times := { checkPenalized := 0, oldAge := fun _ => 0, oldestAge := fun _ => 0, penalize := 0, touch := 0, age := fun _ => 1 }

/-- With an idle time of one second the connection is erased while its holder is constructed. -/
theorem sockPool_not_safe : lateCall.times.InOrder ∧ ∃ st,
    PoolState.runs { idletimeout := fun _ => 1 } [.hold lateCall] {} = some st ∧
      ¬st.Safe { idletimeout := fun _ => 1 } := by
  refine ⟨?_, ⟨{ next := 1 }, some 0⟩, rfl, fun h => ?_⟩
  · constructor <;> simp [lateCall]
  · obtain ⟨e, he, -⟩ := h.held 0 rfl
    exact absurd he SortedMap.not_mem_empty

end Nget
