import BrainEngine.Lib.Processes

/-! # One daemon for a project

`run` of the daemon from the test of the socket path to the removal of its files, by any number of
daemons on one root; a daemon goes by its pid. Both the guard at the start and the cleanup at the end
remove files by name. `serves_iff` says that this is the only thing that can go wrong: in a run whose
removals spare the files of running daemons, one daemon serves at most, and its files are its own. -/

namespace BrainEngine.Daemon.Serving

open BrainEngine.Lib.Machine BrainEngine.Lib.Processes

/-- The files of the daemons in `.brain`, and which listeners are open. -/
structure Files where
  /-- Whose socket `brain.sock` is. -/
  socket : Option ℕ
  /-- What `brain.pid` contains. -/
  pidFile : Option ℕ
  listening : ℕ → Bool

/-- Where a daemon is in `run`. -/
inductive Place
  /-- Before `socket_path.exists()`. -/
  | start
  /-- Before `probe_socket`. -/
  | probing
  /-- Before the removal of a stale socket. -/
  | stale
  /-- Before the removal of the pid file. -/
  | oldPid
  /-- Before `worker::spawn`. -/
  | spawning
  /-- Before `UnixListener::bind`. -/
  | binding
  /-- Before the write of the pid file. -/
  | writing
  /-- From the start of the watcher to the shutdown signal. -/
  | serving
  /-- Before the removal of the socket path. -/
  | closing
  /-- Before the removal of the pid file at the end. -/
  | closingPid
  | exited
  deriving DecidableEq

inductive Action
  | go
  /-- SIGTERM or Ctrl-C. -/
  | signal
  /-- A crash, or an error of the worker, the pid file or the watcher that `run` returns. -/
  | die
  deriving DecidableEq

/-- One step of daemon `p`. -/
def stepOf (p : ℕ) (f : Files) : Place → Action → Option (Files × Place)
  | .start, .go => some (f, if f.socket.isSome then .probing else .oldPid)
  | .probing, .go =>
    -- a connection is accepted by an open listener and by nothing else
    some (f, if f.socket.any f.listening then .exited else .stale)
  | .stale, .go => some ({ f with socket := none }, .oldPid)
  | .oldPid, .go => some ({ f with pidFile := none }, .spawning)
  | .spawning, .go => some (f, .binding)
  | .binding, .go =>
    if f.socket.isSome then some (f, .exited)
    else some ({ f with socket := some p, listening := Function.update f.listening p true }, .writing)
  | .writing, .go => some ({ f with pidFile := some p }, .serving)
  | .serving, .signal => some (f, .closing)
  | .closing, .go => some ({ f with socket := none }, .closingPid)
  | .closingPid, .go =>
    some ({ f with pidFile := none, listening := Function.update f.listening p false }, .exited)
  | .exited, _ => none
  | _, .die => some ({ f with listening := Function.update f.listening p false }, .exited)
  | _, _ => none

def step : Pool Files Place → ℕ × Action → Option (Pool Files Place) := turn stepOf

/-- Files that earlier daemons may have left, and daemons that have not begun. -/
def start (socket pidFile : Option ℕ) : Pool Files Place :=
  ⟨⟨socket, pidFile, fun _ => false⟩, fun _ => .start⟩

/-- One daemon serves at most, the socket path is its listener's and the pid file holds its pid. -/
structure Single (c : Pool Files Place) : Prop where
  unique : ∀ p q, c.places p = .serving → c.places q = .serving → p = q
  socket : ∀ p, c.places p = .serving → c.shared.socket = some p
  pidFile : ∀ p, c.places p = .serving → c.shared.pidFile = some p

/-- Between its bind and its shutdown. -/
def up : Place → Bool
  | .writing => true
  | .serving => true
  | _ => false

/-- The steps that remove the socket path. -/
def unlinksSocket (place : Place) (a : Action) : Bool :=
  (place = .stale || place = .closing) && a = .go

/-- The steps that remove the pid file. -/
def unlinksPid (place : Place) (a : Action) : Bool :=
  (place = .oldPid || place = .closingPid) && a = .go

/-- A removal of the socket path spares the socket of a daemon that is up, and a removal of the pid
file spares that of a daemon that serves. -/
def spares (c : Pool Files Place) (m : ℕ × Action) : Bool :=
  (!unlinksSocket (c.places m.1) m.2 || c.shared.socket.all fun q => !up (c.places q)) &&
    (!unlinksPid (c.places m.1) m.2 || c.shared.pidFile.all fun q => c.places q ≠ .serving)

/-- A daemon serves alone, and so will one that is about to write its pid file. -/
def Kept (c : Pool Files Place) : Prop :=
  Single c ∧ ∀ q c', c.places q = .writing → step c (q, .go) = some c' → Single c'

/-! ### One step -/

variable {f f' : Files} {place place' : Place} {a : Action} {p : ℕ}

/-- **What a step can do** to the files, and where it leads. -/
theorem stepOf_cases (h : stepOf p f place a = some (f', place')) :
    (f'.socket = f.socket ∧ f'.pidFile = f.pidFile ∧ up place' = false) ∨
    (unlinksSocket place a = true ∧ f'.socket = none ∧ f'.pidFile = f.pidFile ∧ up place' = false) ∨
    (unlinksPid place a = true ∧ f'.socket = f.socket ∧ f'.pidFile = none ∧ up place' = false) ∨
    (place = .binding ∧ f.socket = none ∧ f'.socket = some p ∧ f'.pidFile = f.pidFile ∧
      place' = .writing) ∨
    (place = .writing ∧ f'.socket = f.socket ∧ f'.pidFile = some p ∧ place' = .serving) := by
  unfold stepOf at h
  split at h
  · cases h
    refine Or.inl ⟨rfl, rfl, ?_⟩
    split_ifs <;> rfl
  · cases h
    refine Or.inl ⟨rfl, rfl, ?_⟩
    split_ifs <;> rfl
  · cases h
    exact Or.inr (Or.inl ⟨rfl, rfl, rfl, rfl⟩)
  · cases h
    exact Or.inr (Or.inr (Or.inl ⟨rfl, rfl, rfl, rfl⟩))
  · cases h
    exact Or.inl ⟨rfl, rfl, rfl⟩
  · split_ifs at h with hs
    · cases h
      exact Or.inl ⟨rfl, rfl, rfl⟩
    · cases h
      exact Or.inr (Or.inr (Or.inr (Or.inl ⟨rfl, by simpa using hs, rfl, rfl, rfl⟩)))
  · cases h
    exact Or.inr (Or.inr (Or.inr (Or.inr ⟨rfl, rfl, rfl, rfl⟩)))
  · cases h
    exact Or.inl ⟨rfl, rfl, rfl⟩
  · cases h
    exact Or.inr (Or.inl ⟨rfl, rfl, rfl, rfl⟩)
  · cases h
    exact Or.inr (Or.inr (Or.inl ⟨rfl, rfl, rfl, rfl⟩))
  · cases h
  · cases h
    exact Or.inl ⟨rfl, rfl, rfl⟩
  · cases h

theorem socket_of_unlinks (hu : unlinksSocket place a = true)
    (h : stepOf p f place a = some (f', place')) : f'.socket = none ∧ up place = false := by
  simp only [unlinksSocket, Bool.and_eq_true, Bool.or_eq_true, decide_eq_true_eq] at hu
  obtain ⟨rfl | rfl, rfl⟩ := hu
  · cases h
    exact ⟨rfl, rfl⟩
  · cases h
    exact ⟨rfl, rfl⟩

theorem pidFile_of_unlinks (hu : unlinksPid place a = true)
    (h : stepOf p f place a = some (f', place')) : f'.pidFile = none ∧ place ≠ .serving := by
  simp only [unlinksPid, Bool.and_eq_true, Bool.or_eq_true, decide_eq_true_eq] at hu
  obtain ⟨rfl | rfl, rfl⟩ := hu
  · cases h
    exact ⟨rfl, by simp⟩
  · cases h
    exact ⟨rfl, by simp⟩

/-- What a daemon may rely on: up, the socket is its own; serving, so is the pid file. -/
structure Own (p : ℕ) (f : Files) (place : Place) : Prop where
  socket : up place = true → f.socket = some p
  pidFile : place = .serving → f.pidFile = some p

theorem own_of_not_up (h : up place = false) : Own p f place :=
  ⟨fun hu => by simp [h] at hu, fun hs => by simp [hs, up] at h⟩

variable {c c' : Pool Files Place} {m : ℕ × Action}

theorem spares_iff : spares c m = true ↔
    (unlinksSocket (c.places m.1) m.2 = true →
      ∀ q, c.shared.socket = some q → up (c.places q) = false) ∧
    (unlinksPid (c.places m.1) m.2 = true →
      ∀ q, c.shared.pidFile = some q → c.places q ≠ .serving) := by
  simp only [spares, Bool.and_eq_true, Bool.or_eq_true, Bool.not_eq_true', Option.all_eq_true,
    decide_eq_true_eq, Bool.eq_false_iff, ne_eq, imp_iff_not_or]

/-- **One step** that spares the files of the others. -/
theorem own_step (h : ∀ q, Own q c.shared (c.places q)) (hsp : spares c m = true)
    (hs : step c m = some c') : ∀ q, Own q c'.shared (c'.places q) := by
  refine turn_assertion (J := Own) ?_ ?_ h hs
  · intro f place hown hstep
    rcases stepOf_cases hstep with ⟨-, -, hu⟩ | ⟨-, -, -, hu⟩ | ⟨-, -, -, hu⟩ |
      ⟨-, -, h1, -, rfl⟩ | ⟨hp, h1, h2, rfl⟩
    · exact own_of_not_up hu
    · exact own_of_not_up hu
    · exact own_of_not_up hu
    · exact ⟨fun _ => h1, fun he => by cases he⟩
    · exact ⟨fun _ => h1.trans (hown.socket (by rw [hp]; rfl)), fun _ => h2⟩
  · intro q f place hne hq hown hstep
    rcases stepOf_cases hstep with ⟨h1, h2, -⟩ | ⟨hp, -, -, -⟩ | ⟨hp, h1, h2, -⟩ |
      ⟨-, h1, -, -, -⟩ | ⟨hp, h1, -, -⟩
    · exact ⟨fun hu => h1.trans (hq.socket hu), fun he => h2.trans (hq.pidFile he)⟩
    · -- the socket that is removed is not that of a daemon that is up
      have hu : up (c.places q) = false := by
        by_contra hu
        exact hu ((spares_iff.mp hsp).1 hp q (hq.socket (Bool.not_eq_false _ ▸ hu)))
      exact own_of_not_up hu
    · have hserve : c.places q ≠ .serving := fun he =>
        (spares_iff.mp hsp).2 hp q (hq.pidFile he) he
      exact ⟨fun hu => h1.trans (hq.socket hu), fun he => absurd he hserve⟩
    · -- the path was free, so no other daemon is up
      have hu : up (c.places q) = false := by
        by_contra hu
        have := hq.socket (Bool.not_eq_false _ ▸ hu)
        rw [h1] at this
        cases this
      exact own_of_not_up hu
    · have hu : up (c.places q) = false := by
        by_contra hu
        have h3 := hq.socket (Bool.not_eq_false _ ▸ hu)
        rw [hown.socket (by rw [hp]; rfl)] at h3
        exact hne (Option.some.inj h3).symm
      exact own_of_not_up hu

/-- Daemons that own their files serve alone. -/
theorem single_of_own (h : ∀ q, Own q c.shared (c.places q)) : Single c := by
  have hup : ∀ {p}, c.places p = .serving → up (c.places p) = true := fun he => by rw [he]; rfl
  refine ⟨fun p q hp hq => ?_, fun p hp => (h p).socket (hup hp), fun p hp => (h p).pidFile hp⟩
  have h1 := (h p).socket (hup hp)
  rw [(h q).socket (hup hq)] at h1
  exact (Option.some.inj h1).symm

theorem spares_of_writing {q : ℕ} (h : c.places q = .writing) : spares c (q, .go) = true := by
  simp [spares, h, unlinksSocket, unlinksPid]

theorem kept_of_own (h : ∀ q, Own q c.shared (c.places q)) : Kept c :=
  ⟨single_of_own h, fun _ _ hq hs => single_of_own (own_step h (spares_of_writing hq) hs)⟩

theorem places_of_ne (hs : step c m = some c') {q : ℕ} (h : c.places q ≠ c.places m.1) :
    c'.places q = c.places q := by
  obtain ⟨d, -, rfl⟩ := turn_eq_some.mp hs
  exact Function.update_of_ne (fun he => h (by rw [he])) _ _

/-- Where the property holds, and will, a daemon that is up has its socket. -/
theorem socket_of_kept (h : Kept c) {q : ℕ} (hq : up (c.places q) = true) :
    c.shared.socket = some q := by
  cases hp : c.places q with
  | serving => exact h.1.socket q hp
  | writing =>
    have hw : stepOf q c.shared (c.places q) .go =
        some ({ c.shared with pidFile := some q }, .serving) := by
      rw [hp]
      rfl
    exact (h.2 q _ hp (turn_eq_some.mpr ⟨_, hw, rfl⟩)).socket q (Function.update_self _ _ _)
  | _ =>
    rw [hp] at hq
    cases hq

/-- **A removal that does not spare** breaks the property, at the latest when the daemon whose socket
is gone writes its pid file. -/
theorem spares_of_kept (hs : step c m = some c') (h : Kept c') : spares c m = true := by
  obtain ⟨⟨f, place⟩, hd, hc⟩ := turn_eq_some.mp hs
  have hf : c'.shared = f := by rw [hc]
  refine spares_iff.mpr ⟨fun hu q _ => ?_, fun hu q _ he => ?_⟩
  · obtain ⟨hnone, hm⟩ := socket_of_unlinks hu hd
    by_contra hq
    have hq := Bool.not_eq_false _ ▸ hq
    have hq' : c'.places q = c.places q := places_of_ne hs fun he => by simp [he, hm] at hq
    have hsocket := socket_of_kept h (q := q) (hq' ▸ hq)
    rw [hf, hnone] at hsocket
    cases hsocket
  · obtain ⟨hnone, hm⟩ := pidFile_of_unlinks hu hd
    have hq' : c'.places q = c.places q := places_of_ne hs fun h => hm (h ▸ he)
    have hpid := h.1.pidFile q (hq'.trans he)
    rw [hf, hnone] at hpid
    cases hpid

/-! ### Runs -/

theorem own_start (socket pidFile : Option ℕ) (q : ℕ) :
    Own q (start socket pidFile).shared ((start socket pidFile).places q) := own_of_not_up rfl

theorem allSteps_kept_iff {ms : List (ℕ × Action)} (h : ∀ q, Own q c.shared (c.places q)) :
    AllSteps step (fun _ _ c' => Kept c') ms c ↔
      AllSteps step (fun c m _ => spares c m = true) ms c := by
  induction ms generalizing c with
  | nil => rfl
  | cons m ms ih =>
    cases hs : step c m with
    | none => simp [AllSteps, hs]
    | some c' =>
      rw [allSteps_cons hs, allSteps_cons hs]
      constructor
      · rintro ⟨hk, hall⟩
        have hsp := spares_of_kept hs hk
        exact ⟨hsp, (ih (own_step h hsp hs)).mp hall⟩
      · rintro ⟨hsp, hall⟩
        have hown := own_step h hsp hs
        exact ⟨kept_of_own hown, (ih hown).mpr hall⟩

/-- **One daemon serves, exactly while removals spare.** In every interleaving of daemons, from any
stale files: after each step one daemon serves at most, with its own files, and so it will be when a
daemon with a listener has written its pid file, if and only if each step that removes a file by name
spares the files of the daemons that are up. -/
theorem serves_iff (socket pidFile : Option ℕ) (ms : List (ℕ × Action)) :
    AllSteps step (fun _ _ c' => Kept c') ms (start socket pidFile) ↔
      AllSteps step (fun c m _ => spares c m = true) ms (start socket pidFile) :=
  allSteps_kept_iff (own_start socket pidFile)

/-- Two daemons find the same stale socket. The second removes it after the first has bound its own. -/
def race : List (ℕ × Action) :=
  [(0, .go), (1, .go), (0, .go), (1, .go)] ++ List.replicate 5 (0, .go) ++ List.replicate 5 (1, .go)

/-- **Two daemons serve** after a race for a stale socket. -/
theorem not_single : ¬∀ ms c, run step ms (start (some 7) (some 7)) = some c → Single c := by
  intro h
  have hr : (run step race (start (some 7) (some 7))).map (fun c => (c.places 0, c.places 1)) =
      some (.serving, .serving) := by decide
  obtain ⟨c, hc, hp⟩ := Option.map_eq_some_iff.mp hr
  obtain ⟨h0, h1⟩ := Prod.mk.inj hp
  exact absurd ((h _ c hc).unique 0 1 h0 h1) (by decide)

end BrainEngine.Daemon.Serving
