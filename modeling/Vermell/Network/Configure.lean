import Vermell.Network.Socket
import Vermell.Request.RouterEpoll

/-! `Config` and the calls of `Vermell` that change it: one at a time through the setters, all at
once through `configure`, before `listen` and while the loops run. -/
namespace Vermell.Network
open Runs Request

def BUFFER : ℤ := 0x800
def MIN_PORT : UInt16 := 0x3e8
def DEF_PORT : UInt16 := 0xbb8
def MAX_READ_CHUNK : UInt64 := (1 : UInt64) <<< 20
def MAX_EVENTS : ℤ := 65536
def MAX_THREADS : UInt64 := 256

/-- `vermell::Config`. The timeouts are in milliseconds. -/
structure Config where
  port : UInt16 := 0
  backlog : ℤ := SOMAXCONN
  bufferSize : ℤ := BUFFER
  readTimeout : ℤ := 5000
  requestTimeout : ℤ := 60000
  writeTimeout : ℤ := 5000
  maxRequestSize : UInt64 := 4*1024*1024
  readChunk : UInt64 := 16*1024
  threads : UInt64 := 0
  acceptThreads : UInt64 := 1
  maxEvents : ℤ := 1024
  maxQueueSize : UInt64 := 0
  maxConnections : UInt64 := 1024
  reusePort : Bool := false
  epollTimeout : ℤ := 1000
  deriving DecidableEq, Repr

def clampMs (ms : ℤ) : ℤ := if ms < 1 then 1 else if ms > INT_MAX then INT_MAX else ms

def clampReadChunk (n : UInt64) : UInt64 := if n = 0 ∨ n > MAX_READ_CHUNK then MAX_READ_CHUNK else n

def clampMaxEvents (n : ℤ) : ℤ := if n ≤ 0 ∨ n > MAX_EVENTS then MAX_EVENTS else n

def clampThreads (n : UInt64) : UInt64 := if n > MAX_THREADS then MAX_THREADS else n

def clampBacklog (n : ℤ) : ℤ := if n ≤ 0 ∨ n > MAX_SESSIONS then MAX_SESSIONS else n

/-- What `configure` makes of the fields, but for the port. -/
def Config.clamped (c : Config) : Config :=
  { c with
    readChunk := clampReadChunk c.readChunk
    maxEvents := clampMaxEvents c.maxEvents
    threads := clampThreads c.threads
    acceptThreads := clampThreads c.acceptThreads
    backlog := clampBacklog c.backlog
    readTimeout := clampMs c.readTimeout
    writeTimeout := clampMs c.writeTimeout
    requestTimeout := clampMs c.requestTimeout
    epollTimeout := clampMs c.epollTimeout }

/-- A `ThreadPool` by what it was made with; no two of a process have the same number. -/
structure Pool where
  number : ℕ
  threads : UInt64
  maxQueueSize : UInt64
  deriving DecidableEq, Repr

/-- A `RequestIO` by its configuration and its pool, and whether it was started with one: its client
descriptors are armed accordingly. -/
structure LiveLoop where
  config : Config
  pool : Option Pool
  pooled : Bool
  deriving DecidableEq, Repr

/-- The members of `Vermell` and of its `RouterEpoll` that a configuration reaches. -/
structure App where
  config : Config := {}
  tcpControl : Server := {}
  pool : Option Pool := none
  configuredThreads : UInt64 := 0
  requests : List LiveLoop := []
  pools : ℕ := 0

/-- The setters of single fields. -/
inductive Setter
  | readTimeout (ms : ℤ)
  | writeTimeout (ms : ℤ)
  | requestTimeout (ms : ℤ)
  | maxRequestSize (bytes : UInt64)
  | readChunkSize (bytes : UInt64)
  | threads (n : UInt64)
  | acceptThreads (n : UInt64)
  | maxEvents (n : ℤ)
  | maxQueueSize (n : UInt64)
  | maxConnections (n : UInt64)
  | backlog (n : ℤ)
  | bufferSize (n : ℤ)
  | reusePort (enable : Bool)

/-- The field as it is handed over. -/
def Setter.assign (c : Config) : Setter → Config
  | .readTimeout ms => { c with readTimeout := ms }
  | .writeTimeout ms => { c with writeTimeout := ms }
  | .requestTimeout ms => { c with requestTimeout := ms }
  | .maxRequestSize bytes => { c with maxRequestSize := bytes }
  | .readChunkSize bytes => { c with readChunk := bytes }
  | .threads n => { c with threads := n }
  | .acceptThreads n => { c with acceptThreads := n }
  | .maxEvents n => { c with maxEvents := n }
  | .maxQueueSize n => { c with maxQueueSize := n }
  | .maxConnections n => { c with maxConnections := n }
  | .backlog n => { c with backlog := n }
  | .bufferSize n => { c with bufferSize := n }
  | .reusePort enable => { c with reusePort := enable }

inductive AppCall
  | set (s : Setter)
  | setPort (port : UInt16)
  | configure (config : Config)
  | listen (listenType : ListenType) (cores : ℕ)
  | stop

namespace App
variable (v : App)

def getPort : UInt16 := if v.config.port ≥ MIN_PORT then v.config.port else DEF_PORT

/-- `applyNetworkConfig` -/
def applyNetworkConfig : App :=
  let tcp := (v.tcpControl.setBuffer v.config.bufferSize).1
  let tcp := (tcp.setPort (if v.config.port ≥ MIN_PORT then v.config.port else DEF_PORT)).1
  let tcp := (tcp.setSessions v.config.backlog).setReusePort v.config.reusePort
  { v with tcpControl := tcp }

/-- The setters, each with its own clamp. Three of them reach the socket at once. -/
def set : Setter → App
  | .readTimeout ms => { v with config := { v.config with readTimeout := clampMs ms } }
  | .writeTimeout ms => { v with config := { v.config with writeTimeout := clampMs ms } }
  | .requestTimeout ms => { v with config := { v.config with requestTimeout := clampMs ms } }
  | .maxRequestSize bytes => { v with config := { v.config with maxRequestSize := bytes } }
  | .readChunkSize bytes =>
    { v with config := { v.config with readChunk := clampReadChunk bytes } }
  | .threads n => { v with config := { v.config with threads := clampThreads n } }
  | .acceptThreads n => { v with config := { v.config with acceptThreads := clampThreads n } }
  | .maxEvents n => { v with config := { v.config with maxEvents := clampMaxEvents n } }
  | .maxQueueSize n => { v with config := { v.config with maxQueueSize := n } }
  | .maxConnections n => { v with config := { v.config with maxConnections := n } }
  | .backlog n =>
    { v with
      config := { v.config with backlog := clampBacklog n }
      tcpControl := v.tcpControl.setSessions (clampBacklog n) }
  | .bufferSize n =>
    { v with
      config := { v.config with bufferSize := n }
      tcpControl := (v.tcpControl.setBuffer n).1 }
  | .reusePort enable =>
    { v with
      config := { v.config with reusePort := enable }
      tcpControl := v.tcpControl.setReusePort enable }

def setPort (port : UInt16) : App :=
  if port ≥ MIN_PORT then
    { v with config := { v.config with port }, tcpControl := (v.tcpControl.setPort port).1 }
  else v

/-- A new pool for a number of workers. -/
def newPool (c : Config) : App :=
  let pool : Pool := ⟨v.pools, c.threads, c.maxQueueSize⟩
  { v with pool := some pool, configuredThreads := c.threads, pools := v.pools + 1 }

/-- `RouterEpoll::applyConfig` -/
def applyConfig (c : Config) : App :=
  let v :=
    if v.pool.isSome ∧ c.threads > 0 ∧ c.threads ≠ v.configuredThreads then
      let v := v.newPool c
      { v with requests := v.requests.map fun r => { r with pool := v.pool } }
    else v
  { v with requests := v.requests.map fun r => { r with config := c } }

def configure (c : Config) : App :=
  let port := if c.port < MIN_PORT then v.config.port else c.port
  let v := { v with config := { c with port }.clamped }
  v.applyNetworkConfig.applyConfig v.config

/-- `getMainProcess` up to its loops. -/
def listen (listenType : ListenType) (cores : ℕ) : App :=
  let count := acceptCount listenType v.config.acceptThreads.toNat cores
  let v :=
    if v.config.threads = 0 then { v with pool := none, configuredThreads := 0 }
    else v.newPool v.config
  let tcp := (v.tcpControl.setPort (.ofInt v.tcpControl.getPort)).1
  let tcp := (tcp.setReusePort (decide (count > 1) || v.config.reusePort)).setSessions
    v.config.backlog
  { v with
    tcpControl := tcp
    requests := List.replicate count ⟨v.config, v.pool, v.pool.isSome⟩ }

/-- The constructors. -/
def create (port : UInt16) : App :=
  applyNetworkConfig { config := { port := if port ≥ MIN_PORT then port else 0 } }

/-- A call; `listen` returns at `stop`, and the others may come in between. -/
def step (v : App) : AppCall → Option App
  | .set s => some (v.set s)
  | .setPort port => some (v.setPort port)
  | .configure c => some (v.configure c)
  | .listen listenType cores => if v.requests = [] then some (v.listen listenType cores) else none
  | .stop => some { v with requests := [] }

end App

/-- A configuration whose fields are in their ranges. The timeouts are there in particular. -/
structure Fit (c : Config) : Prop where
  port : c.port = 0 ∨ c.port ≥ MIN_PORT
  readChunk : 0 < c.readChunk ∧ c.readChunk ≤ MAX_READ_CHUNK
  maxEvents : 0 < c.maxEvents ∧ c.maxEvents ≤ MAX_EVENTS
  threads : c.threads ≤ MAX_THREADS
  acceptThreads : c.acceptThreads ≤ MAX_THREADS
  backlog : 0 < c.backlog ∧ c.backlog ≤ MAX_SESSIONS
  readTimeout : 0 < c.readTimeout ∧ c.readTimeout ≤ INT_MAX
  writeTimeout : 0 < c.writeTimeout ∧ c.writeTimeout ≤ INT_MAX
  requestTimeout : 0 < c.requestTimeout ∧ c.requestTimeout ≤ INT_MAX
  epollTimeout : 0 < c.epollTimeout ∧ c.epollTimeout ≤ INT_MAX

theorem clampMs_fit (ms : ℤ) : 0 < clampMs ms ∧ clampMs ms ≤ INT_MAX := by
  unfold clampMs INT_MAX
  split_ifs <;> omega

theorem clampReadChunk_fit (n : UInt64) :
    0 < clampReadChunk n ∧ clampReadChunk n ≤ MAX_READ_CHUNK := by
  unfold clampReadChunk
  split_ifs with h
  · decide
  · rw [not_or] at h
    exact ⟨UInt64.pos_iff_ne_zero.mpr h.1, UInt64.not_lt.mp h.2⟩

theorem clampMaxEvents_fit (n : ℤ) : 0 < clampMaxEvents n ∧ clampMaxEvents n ≤ MAX_EVENTS := by
  unfold clampMaxEvents MAX_EVENTS
  split_ifs <;> omega

theorem clampThreads_fit (n : UInt64) : clampThreads n ≤ MAX_THREADS := by
  unfold clampThreads
  split_ifs with h
  · exact UInt64.le_refl _
  · exact UInt64.not_lt.mp h

theorem clampBacklog_fit (n : ℤ) : 0 < clampBacklog n ∧ clampBacklog n ≤ MAX_SESSIONS := by
  unfold clampBacklog MAX_SESSIONS
  split_ifs <;> omega

theorem clampMs_eq {ms : ℤ} (h : 0 < ms ∧ ms ≤ INT_MAX) : clampMs ms = ms := by
  rw [clampMs, if_neg (by omega), if_neg (by omega)]

theorem clampReadChunk_eq {n : UInt64} (h : 0 < n ∧ n ≤ MAX_READ_CHUNK) : clampReadChunk n = n := by
  refine if_neg ?_
  rw [not_or]
  exact ⟨UInt64.pos_iff_ne_zero.mp h.1, UInt64.not_lt.mpr h.2⟩

theorem clampMaxEvents_eq {n : ℤ} (h : 0 < n ∧ n ≤ MAX_EVENTS) : clampMaxEvents n = n :=
  if_neg (by omega)

theorem clampThreads_eq {n : UInt64} (h : n ≤ MAX_THREADS) : clampThreads n = n :=
  if_neg (UInt64.not_lt.mpr h)

theorem clampBacklog_eq {n : ℤ} (h : 0 < n ∧ n ≤ MAX_SESSIONS) : clampBacklog n = n :=
  if_neg (by omega)

/-- Clamping makes a configuration fit, and leaves one that fits alone. -/
theorem fit_clamped {c : Config} (h : c.port = 0 ∨ c.port ≥ MIN_PORT) : Fit c.clamped :=
  ⟨h, clampReadChunk_fit _, clampMaxEvents_fit _, clampThreads_fit _, clampThreads_fit _,
    clampBacklog_fit _, clampMs_fit _, clampMs_fit _, clampMs_fit _, clampMs_fit _⟩

theorem Fit.clamped_eq {c : Config} (h : Fit c) : c.clamped = c := by
  unfold Config.clamped
  rw [clampReadChunk_eq h.readChunk, clampMaxEvents_eq h.maxEvents, clampThreads_eq h.threads,
    clampThreads_eq h.acceptThreads, clampBacklog_eq h.backlog, clampMs_eq h.readTimeout,
    clampMs_eq h.writeTimeout, clampMs_eq h.requestTimeout, clampMs_eq h.epollTimeout]

/-- A setter clamps its field as `configure` does. -/
theorem set_config {v : App} {c : Config} (h : v.config = c.clamped) (s : Setter) :
    (v.set s).config = (s.assign c).clamped := by
  cases s <;> simp only [App.set, Setter.assign, h] <;> rfl

theorem foldl_assign_port (c : Config) (ss : List Setter) :
    (ss.foldl Setter.assign c).port = c.port := by
  induction ss generalizing c with
  | nil => rfl
  | cons s ss ih =>
    rw [List.foldl_cons, ih]
    cases s <;> rfl

namespace App
variable {v : App}

/-- The loops that run: all with one configuration that fits and with the pool of the process, and
in the mode that they were started in. -/
structure LiveSound (requests : List LiveLoop) (pool : Option Pool) (configuredThreads : UInt64) :
    Prop where
  fit : ∀ r ∈ requests, Fit r.config
  shared : ∀ r ∈ requests, ∀ r' ∈ requests, r.config = r'.config
  common : ∀ r ∈ requests, r.pool = pool
  mode : ∀ r ∈ requests, r.pooled = pool.isSome
  threads : ∀ p ∈ pool, p.threads = configuredThreads ∧ 0 < p.threads ∧ p.threads ≤ MAX_THREADS

theorem live_nil {pool : Option Pool} {n : UInt64}
    (h : ∀ p ∈ pool, p.threads = n ∧ 0 < p.threads ∧ p.threads ≤ MAX_THREADS) :
    LiveSound [] pool n :=
  ⟨by simp, by simp, by simp, by simp, h⟩

/-- The configuration fits, the socket is configured as it says, and the loops are sound. -/
structure Sane (v : App) : Prop where
  config : Fit v.config
  knobs : Knobs v.tcpControl
  port : v.tcpControl.PORT = v.getPort
  backlog : v.tcpControl.staticSessions = v.config.backlog
  live : LiveSound v.requests v.pool v.configuredThreads

theorem getPort_ge (v : App) : v.getPort ≥ MIN_PORT := by
  unfold getPort
  split_ifs with h
  · exact h
  · decide

theorem ne_zero_of_min_port {port : UInt16} (h : port ≥ MIN_PORT) : port ≠ 0 := by
  rintro rfl
  exact absurd h (by decide)

theorem setPort_of_ge {s : Server} {port : UInt16} (h : port ≥ MIN_PORT) :
    (s.setPort port).1 = { s with PORT := port } := by
  rw [Server.setPort, if_neg (ne_zero_of_min_port h)]

theorem setSessions_of_fit {s : Server} {n : ℤ} (h : 0 < n ∧ n ≤ MAX_SESSIONS) :
    s.setSessions n = { s with staticSessions := n } := by
  rw [Server.setSessions, if_neg (by omega)]

theorem knobs_setBuffer {s : Server} (h : Knobs s) (size : ℤ) :
    Knobs (s.setBuffer size).1 ∧ (s.setBuffer size).1.PORT = s.PORT ∧
      (s.setBuffer size).1.staticSessions = s.staticSessions := by
  unfold Server.setBuffer
  split_ifs with hrange
  · exact ⟨h, rfl, rfl⟩
  · have hsize : 0 < size ∧ size ≤ MAX_BUFFER_SIZE := by omega
    exact ⟨⟨h.port, hsize, h.sessions, h.timeout⟩, rfl, rfl⟩

/-- The socket behind `applyNetworkConfig`. -/
theorem network_applyNetworkConfig (hknobs : Knobs v.tcpControl) (hfit : Fit v.config) :
    Knobs v.applyNetworkConfig.tcpControl ∧ v.applyNetworkConfig.tcpControl.PORT = v.getPort ∧
      v.applyNetworkConfig.tcpControl.staticSessions = v.config.backlog := by
  obtain ⟨hbuffer, -, -⟩ := knobs_setBuffer hknobs v.config.bufferSize
  have hport : (if v.config.port ≥ MIN_PORT then v.config.port else DEF_PORT) = v.getPort := rfl
  unfold applyNetworkConfig
  simp only [hport, setPort_of_ge v.getPort_ge, setSessions_of_fit hfit.backlog,
    Server.setReusePort]
  refine ⟨?_, trivial, trivial⟩
  exact ⟨ne_zero_of_min_port v.getPort_ge, hbuffer.buffer, hfit.backlog, hbuffer.timeout⟩

theorem live_applyConfig (h : LiveSound v.requests v.pool v.configuredThreads) {c : Config}
    (hc : Fit c) : LiveSound (v.applyConfig c).requests (v.applyConfig c).pool
      (v.applyConfig c).configuredThreads := by
  have hmap {requests : List LiveLoop} {r : LiveLoop}
      (hr : r ∈ requests.map fun r => { r with config := c }) :
      ∃ r₀ ∈ requests, r = { r₀ with config := c } := by
    obtain ⟨r₀, hr₀, rfl⟩ := List.mem_map.mp hr
    exact ⟨r₀, hr₀, rfl⟩
  unfold applyConfig
  split_ifs with hreplace
  · refine ⟨fun r hr => ?_, fun r hr r' hr' => ?_, fun r hr => ?_, fun r hr => ?_, ?_⟩
    · obtain ⟨r₀, -, rfl⟩ := hmap hr
      exact hc
    · obtain ⟨r₀, -, rfl⟩ := hmap hr
      obtain ⟨r₁, -, rfl⟩ := hmap hr'
      rfl
    · obtain ⟨r₀, hr₀, rfl⟩ := hmap hr
      obtain ⟨r₁, -, rfl⟩ := List.mem_map.mp hr₀
      rfl
    · obtain ⟨r₀, hr₀, rfl⟩ := hmap hr
      obtain ⟨r₁, hr₁, rfl⟩ := List.mem_map.mp hr₀
      exact (h.mode r₁ hr₁).trans hreplace.1
    · intro p hp
      cases hp
      exact ⟨rfl, hreplace.2.1, hc.threads⟩
  · refine ⟨fun r hr => ?_, fun r hr r' hr' => ?_, fun r hr => ?_, fun r hr => ?_, h.threads⟩
    · obtain ⟨r₀, -, rfl⟩ := hmap hr
      exact hc
    · obtain ⟨r₀, -, rfl⟩ := hmap hr
      obtain ⟨r₁, -, rfl⟩ := hmap hr'
      rfl
    · obtain ⟨r₀, hr₀, rfl⟩ := hmap hr
      exact h.common r₀ hr₀
    · obtain ⟨r₀, hr₀, rfl⟩ := hmap hr
      exact h.mode r₀ hr₀

theorem Sane.configure (h : v.Sane) (c : Config) : (v.configure c).Sane := by
  let port := if c.port < MIN_PORT then v.config.port else c.port
  have hport : port = 0 ∨ port ≥ MIN_PORT := by
    unfold port
    split_ifs with hlow
    · exact h.config.port
    · exact Or.inr (UInt16.not_lt.mp hlow)
  let v₁ : App := { v with config := ({ c with port } : Config).clamped }
  have hfit : Fit v₁.config := fit_clamped (c := { c with port }) hport
  obtain ⟨hknobs, hsocket, hbacklog⟩ := network_applyNetworkConfig (v := v₁) h.knobs hfit
  have hlive := live_applyConfig (v := v₁.applyNetworkConfig) h.live hfit
  change (v₁.applyNetworkConfig.applyConfig v₁.config).Sane
  have hkeep : (v₁.applyNetworkConfig.applyConfig v₁.config).config = v₁.config ∧
      (v₁.applyNetworkConfig.applyConfig v₁.config).tcpControl =
        v₁.applyNetworkConfig.tcpControl := by
    unfold applyConfig
    split_ifs <;> exact ⟨rfl, rfl⟩
  refine ⟨?_, ?_, ?_, ?_, hlive⟩
  · rw [hkeep.1]
    exact hfit
  · rw [hkeep.2]
    exact hknobs
  · rw [hkeep.2, hsocket, getPort, getPort, hkeep.1]
  · rw [hkeep.2, hkeep.1, hbacklog]

/-- A setter keeps everything in its range. -/
theorem Sane.set (h : v.Sane) (s : Setter) : (v.set s).Sane := by
  have hfit : Fit (v.set s).config := by
    rw [set_config h.config.clamped_eq.symm s]
    apply fit_clamped
    have hport := foldl_assign_port v.config [s]
    rw [List.foldl_cons, List.foldl_nil] at hport
    rw [hport]
    exact h.config.port
  have hlive : LiveSound (v.set s).requests (v.set s).pool (v.set s).configuredThreads := by
    cases s <;> exact h.live
  cases s with
  | backlog n =>
    refine ⟨hfit, ?_, ?_, ?_, hlive⟩
    · change Knobs (v.tcpControl.setSessions (clampBacklog n))
      rw [setSessions_of_fit (clampBacklog_fit n)]
      exact ⟨h.knobs.port, h.knobs.buffer, clampBacklog_fit n, h.knobs.timeout⟩
    · change (v.tcpControl.setSessions (clampBacklog n)).PORT = _
      rw [setSessions_of_fit (clampBacklog_fit n)]
      exact h.port
    · change (v.tcpControl.setSessions (clampBacklog n)).staticSessions = _
      rw [setSessions_of_fit (clampBacklog_fit n)]
      rfl
  | bufferSize n =>
    obtain ⟨hknobs, hport, hsessions⟩ := knobs_setBuffer h.knobs n
    exact ⟨hfit, hknobs, hport.trans h.port, hsessions.trans h.backlog, hlive⟩
  | reusePort enable =>
    exact ⟨hfit, ⟨h.knobs.port, h.knobs.buffer, h.knobs.sessions, h.knobs.timeout⟩, h.port,
      h.backlog, hlive⟩
  | readTimeout ms => exact ⟨hfit, h.knobs, h.port, h.backlog, hlive⟩
  | writeTimeout ms => exact ⟨hfit, h.knobs, h.port, h.backlog, hlive⟩
  | requestTimeout ms => exact ⟨hfit, h.knobs, h.port, h.backlog, hlive⟩
  | maxRequestSize bytes => exact ⟨hfit, h.knobs, h.port, h.backlog, hlive⟩
  | readChunkSize bytes => exact ⟨hfit, h.knobs, h.port, h.backlog, hlive⟩
  | threads n => exact ⟨hfit, h.knobs, h.port, h.backlog, hlive⟩
  | acceptThreads n => exact ⟨hfit, h.knobs, h.port, h.backlog, hlive⟩
  | maxEvents n => exact ⟨hfit, h.knobs, h.port, h.backlog, hlive⟩
  | maxQueueSize n => exact ⟨hfit, h.knobs, h.port, h.backlog, hlive⟩
  | maxConnections n => exact ⟨hfit, h.knobs, h.port, h.backlog, hlive⟩

theorem Sane.setPort (h : v.Sane) (port : UInt16) : (v.setPort port).Sane := by
  unfold App.setPort
  split_ifs with hmin
  · obtain ⟨-, h2, h3, h4, h5, h6, h7, h8, h9, h10⟩ := h.config
    have hget : ({ v with config := { v.config with port } } : App).getPort = port := if_pos hmin
    rw [setPort_of_ge hmin]
    refine ⟨⟨Or.inr hmin, h2, h3, h4, h5, h6, h7, h8, h9, h10⟩, ?_, hget.symm, h.backlog, h.live⟩
    exact ⟨ne_zero_of_min_port hmin, h.knobs.buffer, h.knobs.sessions, h.knobs.timeout⟩
  · exact h

/-- The port goes to the listener as an `int` and comes out again. -/
theorem ofInt_getPort {s : Server} (h : s.PORT ≠ 0) : UInt16.ofInt s.getPort = s.PORT := by
  have hpos : s.PORT > 0 := UInt16.pos_iff_ne_zero.mpr h
  have hlt := s.PORT.toNat_lt
  have hsame : ((s.PORT.toNat : ℤ) % 2^16).toNat = s.PORT.toNat := by omega
  rw [Server.getPort, if_pos hpos, UInt16.ofInt, hsame, UInt16.ofNat_toNat]

theorem Sane.listen (h : v.Sane) (listenType : ListenType) (cores : ℕ) :
    (v.listen listenType cores).Sane := by
  have htcp (count : ℕ) : ((((v.tcpControl.setPort (.ofInt v.tcpControl.getPort)).1.setReusePort
      (decide (count > 1) || v.config.reusePort)).setSessions v.config.backlog)) =
      { v.tcpControl with reusePort := decide (count > 1) || v.config.reusePort } := by
    rw [ofInt_getPort h.knobs.port, Server.setPort, if_neg h.knobs.port,
      setSessions_of_fit h.config.backlog, ← h.backlog]
    rfl
  have hknobs (b : Bool) : Knobs { v.tcpControl with reusePort := b } :=
    ⟨h.knobs.port, h.knobs.buffer, h.knobs.sessions, h.knobs.timeout⟩
  unfold App.listen
  simp only
  split_ifs with hzero
  · simp only [htcp]
    refine ⟨h.config, hknobs _, h.port, h.backlog, ?_⟩
    refine ⟨?_, ?_, ?_, ?_, fun p hp => nomatch hp⟩
    · intro r hr
      rw [List.eq_of_mem_replicate hr]
      exact h.config
    · intro r hr r' hr'
      rw [List.eq_of_mem_replicate hr, List.eq_of_mem_replicate hr']
    · intro r hr
      rw [List.eq_of_mem_replicate hr]
    · intro r hr
      rw [List.eq_of_mem_replicate hr]
  · simp only [newPool, htcp]
    refine ⟨h.config, hknobs _, h.port, h.backlog, ?_⟩
    refine ⟨?_, ?_, ?_, ?_, ?_⟩
    · intro r hr
      rw [List.eq_of_mem_replicate hr]
      exact h.config
    · intro r hr r' hr'
      rw [List.eq_of_mem_replicate hr, List.eq_of_mem_replicate hr']
    · intro r hr
      rw [List.eq_of_mem_replicate hr]
    · intro r hr
      rw [List.eq_of_mem_replicate hr]
    · intro p hp
      cases hp
      exact ⟨rfl, UInt64.pos_iff_ne_zero.mpr hzero, h.config.threads⟩

theorem Sane.step {v' : App} (h : v.Sane) {call : AppCall} (hs : v.step call = some v') :
    v'.Sane := by
  cases call with
  | set s => exact Option.some.inj hs ▸ h.set s
  | setPort port => exact Option.some.inj hs ▸ h.setPort port
  | configure c => exact Option.some.inj hs ▸ h.configure c
  | listen listenType cores =>
    simp only [App.step] at hs
    split_ifs at hs
    exact Option.some.inj hs ▸ h.listen listenType cores
  | stop =>
    cases hs
    exact ⟨h.config, h.knobs, h.port, h.backlog, live_nil h.live.threads⟩

theorem sane_create (port : UInt16) : (create port).Sane := by
  have hfit : Fit { port := if port ≥ MIN_PORT then port else 0 } := by
    have hdefault : Fit {} := by constructor <;> decide
    obtain ⟨-, h2, h3, h4, h5, h6, h7, h8, h9, h10⟩ := hdefault
    refine ⟨?_, h2, h3, h4, h5, h6, h7, h8, h9, h10⟩
    split_ifs with hmin
    · exact Or.inr hmin
    · exact Or.inl rfl
  obtain ⟨hknobs, hsocket, hbacklog⟩ := network_applyNetworkConfig
    (v := { config := { port := if port ≥ MIN_PORT then port else 0 } }) knobs_fresh hfit
  exact ⟨hfit, hknobs, hsocket, hbacklog, live_nil fun p hp => by cases hp⟩

/-- Whatever is configured, in whatever order, before the loops run or while they do: every field is
in its range, so no call turns a deadline off; the socket has the port and the backlog of the
configuration; and the loops share one configuration and one pool, and stay in the mode in which
their connections are armed. -/
theorem configuration_sane (port : UInt16) (calls : List AppCall) :
    Along step Sane (create port) calls :=
  along_of_invariant (fun _ _ _ h hs => h.step hs) (sane_create port) calls

end App
end Vermell.Network
