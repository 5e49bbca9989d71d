import Sol8.Lib.Threads
import Sol8.Os.Rwlock

/-! The invariant of a reader/writer lock. The word is an encoding of two facts about the threads: who
holds the lock, and who waits for it. Here are the steps that move one thread and those that change the
queues. -/

namespace Sol8.Os.Rwlock

open Function Sol8.Lib Finset State Pc

variable {q : Krw}

/-! ### Words by their fields -/

/-- The word with the owner or hold count `n` and the three bits. -/
def encode (n : ℕ) (locked wanted waiters : Bool) : ℕ :=
  8 * n + (4 * locked.toNat + 2 * wanted.toNat + waiters.toNat)

section Encode

variable {n m : ℕ} {l w h : Bool}

private theorem low_lt : 4 * l.toNat + 2 * w.toNat + h.toNat < 2 ^ 3 := by
  cases l <;> cases w <;> cases h <;> decide

private theorem and_low {x : ℕ} (hm : m < 2 ^ 3) : (8 * n + x) &&& m = x &&& m := by
  have h1 : (8 * n + x) &&& m < 2 ^ 3 := lt_of_le_of_lt Nat.and_le_right hm
  have h2 : x &&& m < 2 ^ 3 := lt_of_le_of_lt Nat.and_le_right hm
  rw [← Nat.mod_eq_of_lt h1, ← Nat.mod_eq_of_lt h2, Nat.and_mod_two_pow, Nat.and_mod_two_pow]
  congr 1
  omega

private theorem or_low {x : ℕ} (hx : x < 2 ^ 3) (hm : m < 2 ^ 3) : (8 * n + x) ||| m = 8 * n + (x ||| m) := by
  have hd : ((8 * n + x) ||| m) / 2 ^ 3 = n := by
    rw [Nat.or_div_two_pow, Nat.div_eq_of_lt hm, Nat.or_zero]
    omega
  have hmod : ((8 * n + x) ||| m) % 2 ^ 3 = x ||| m := by
    rw [Nat.or_mod_two_pow, Nat.mod_eq_of_lt hm]
    congr 1
    omega
  omega

@[simp]
theorem hasWaiters_encode : hasWaiters (encode n l w h) ↔ h = true := by
  unfold hasWaiters encode
  rw [and_low (by decide)]
  cases l <;> cases w <;> cases h <;> decide

@[simp]
theorem writeWanted_encode : writeWanted (encode n l w h) ↔ w = true := by
  unfold writeWanted encode
  rw [and_low (by decide)]
  cases l <;> cases w <;> cases h <;> decide

@[simp]
theorem writeLocked_encode : writeLocked (encode n l w h) ↔ l = true := by
  unfold writeLocked encode
  rw [and_low (by decide)]
  cases l <;> cases w <;> cases h <;> decide

@[simp]
theorem locked_encode : locked (encode n l w h) = 8 * n := by
  have := low_lt (l := l) (w := w) (h := h)
  unfold locked encode
  omega

theorem busy_reader_encode : Krw.busy (encode n l w h) .reader = 0 ↔ l = false ∧ w = false := by
  unfold Krw.busy encode
  dsimp only
  rw [and_low (by decide)]
  cases l <;> cases w <;> cases h <;> decide

theorem busy_writer_encode : Krw.busy (encode n l w h) .writer = 0 ↔ n = 0 := by
  rw [Krw.busy, locked_encode]
  omega

theorem or_wait_encode (q : Krw) : encode n l w h ||| q.wait = encode n l (w || q = .writer) true := by
  unfold encode
  rw [or_low low_lt (by cases q <;> decide)]
  congr 1
  cases q <;> cases l <;> cases w <;> cases h <;> decide

theorem or_waitBits_encode (more wanted : Bool) :
    encode n l false false ||| waitBits more wanted = encode n l wanted more := by
  unfold encode
  rw [or_low low_lt (by cases more <;> cases wanted <;> decide)]
  congr 1
  cases l <;> cases more <;> cases wanted <;> decide

theorem value_writer {T : Type} (a : Addresses T) (t : T) : Krw.value a t .writer = 8 * a.num t + 4 := by
  have h := or_low (n := a.num t) (x := 0) (m := 4) (by decide) (by decide)
  simpa [Krw.value] using h

theorem value_writer_encode {T : Type} (a : Addresses T) (t : T) :
    Krw.value a t .writer = encode (a.num t) true false false := by
  rw [value_writer]
  rfl

end Encode

/-! ### Where the threads are -/

namespace Pc

def holds : Pc → Option Krw
  | held rw | granted rw | exitOwner rw | exitRead rw | exitCas rw _ | exitLookup rw _ | exitStore rw _ => some rw
  | downCheck | downAdd => some .writer
  | downLookup | downStore | downWake _ | upRead | upCas _ => some .reader
  | _ => none

/-- How a thread waits for the lock. It waits from the moment that the wait bits speak for it. -/
def waits : Pc → Option Krw
  | enterBlock rw | blocked rw => some rw
  | _ => none

def queued : Pc → Option Krw
  | blocked rw | granted rw => some rw
  | _ => none

def inTurnstile : Pc → Bool
  | enterTest _ | enterSet _ _ | enterExit _ | enterBlock _ | exitStore _ _ | exitWake _ _ | downStore | downWake _ => true
  | _ => false

/-- The wakeup a thread is about to make. -/
def waking : Pc → Option (Krw × ℕ)
  | exitWake q n => some (q, n)
  | downWake n => some (.reader, n)
  | _ => none

/-- Between the two atomic adds of `rw_downgrade`. -/
def inWindow : Pc → Bool
  | downLookup | downStore => true
  | _ => false

/-- The final exit of a lock with waiters, before its store. -/
def leaving : Pc → Option Krw
  | exitLookup rw _ | exitStore rw _ => some rw
  | _ => none

/-- What a thread knows about its `old`. -/
def Local {T : Type} (a : Addresses T) (t : T) : Pc → Prop
  | enterCas rw old => rw.busy old = 0
  | enterSet rw old => rw.busy old ≠ 0
  | tryCas old => Krw.busy old .reader = 0
  | upCas old => old >>> 1 <<< 1 = 8
  | exitCas rw old => ¬finalExit (old - rw.value a t)
  | exitLookup rw old | exitStore rw old => writeLocked old ↔ rw = .writer
  | _ => True

end Pc

variable {T : Type} [Fintype T]

attribute [local simp] Pc.Local turnstileBlock turnstileWakeup

namespace State

variable (s : State T)

def holders (q : Krw) : Finset T := having (fun p => p.holds = some q) s.pc

def waiting (q : Krw) : Finset T := having (fun p => p.waits = some q) s.pc

def Waited : Prop := ∃ q, (s.waiting q).Nonempty

@[simp]
theorem mem_holders {t : T} : t ∈ s.holders q ↔ (s.pc t).holds = some q := by simp [holders]

@[simp]
theorem mem_waiting {t : T} : t ∈ s.waiting q ↔ (s.pc t).waits = some q := by simp [waiting]

/-- The word says who holds the lock and whether anyone, or a writer, waits for it. -/
def Encoded (a : Addresses T) : Prop :=
  ∃ wanted waiters : Bool, (wanted = true ↔ (s.waiting .writer).Nonempty) ∧ (waiters = true ↔ s.Waited) ∧
    ((∃ t, s.holders .writer = {t} ∧ s.holders .reader = ∅ ∧ s.word = encode (a.num t) true wanted waiters) ∨
      s.holders .writer = ∅ ∧ s.word = encode (s.holders .reader).card false wanted waiters)

end State

structure Inv (a : Addresses T) (s : State T) : Prop where
  encoded : s.Encoded a
  lock : ∀ t, (s.pc t).inTurnstile = true ↔ s.tsLock = some t
  queue : ∀ q t, t ∈ s.queue q ↔ (s.pc t).queued = some q
  nodup : ∀ q, (s.queue q).Nodup
  granted : ∀ q t, s.pc t = .granted q ↔ ∃ u n, (s.pc u).waking = some (q, n) ∧ t ∈ (s.queue q).take n
  /-- waiters wait for a holder -/
  held : s.Waited → ∃ q, (s.holders q).Nonempty
  /-- readers wait only for a writer, or to be found by a writer that downgrades -/
  barred : (s.waiting .reader).Nonempty → s.holders .writer = ∅ →
    (s.waiting .writer).Nonempty ∨ ∃ t, (s.pc t).inWindow = true
  /-- no one joins the last holder, and its waiters stay -/
  leaving : ∀ t rw, (s.pc t).leaving = some rw →
    s.Waited ∧ (rw = .reader → s.holders .reader = {t} ∧ (s.waiting .writer).Nonempty)
  known : ∀ t, (s.pc t).Local a t

theorem inv_init {a : Addresses T} {s : State T} (h : Init s) : Inv a s := by
  obtain ⟨hw, hl, hq, hpc⟩ := h
  have hh (q : Krw) : s.holders q = ∅ := by
    ext t
    simp [hpc, holds]
  have ht (q : Krw) : s.waiting q = ∅ := by
    ext t
    simp [hpc, waits]
  have hn : ¬s.Waited := by
    rintro ⟨q, h⟩
    simp [ht] at h
  refine ⟨⟨false, false, ?_, ?_, .inr ⟨hh _, ?_⟩⟩, ?_, ?_, ?_, ?_, fun h => absurd h hn, ?_, ?_, ?_⟩
  · simp [ht]
  · simp [hn]
  · simp [hw, hh, encode]
  all_goals simp [hpc, hl, hq, ht, inTurnstile, queued, waking, leaving]

variable [DecidableEq T]

/-! ### Moves of one thread

A step that moves one thread changes the sets of holders and waiters by that thread only. -/

section Move

variable {a : Addresses T} {s : State T} {t : T} {p : Pc} {w : ℕ} {l : Option T} {rw : Krw}

/-- Thread `t` goes on at `p`, and the word and the lock of the turnstile change. -/
def State.moved (s : State T) (t : T) (p : Pc) (w : ℕ) (l : Option T) : State T :=
  { s with word := w, tsLock := l, pc := update s.pc t p }

theorem holders_same (q : Krw) (h : p.holds = (s.pc t).holds) : (s.moved t p w l).holders q = s.holders q :=
  having_update_same (by simp [h])

theorem holders_insert (h : p.holds = some q) : (s.moved t p w l).holders q = insert t (s.holders q) :=
  having_update_true (by simp [h])

theorem holders_erase (h : p.holds ≠ some q) : (s.moved t p w l).holders q = (s.holders q).erase t :=
  having_update_false (by simp [h])

theorem waiting_same (q : Krw) (h : p.waits = (s.pc t).waits) : (s.moved t p w l).waiting q = s.waiting q :=
  having_update_same (by simp [h])

theorem waited_same (h : p.waits = (s.pc t).waits) : (s.moved t p w l).Waited ↔ s.Waited := by
  unfold State.Waited
  simp only [waiting_same _ h]

def Pc.Free (p : Pc) : Prop := p.queued = none ∧ p.waking = none

section

variable (h : Inv a s)
include h

theorem Inv.move (hf : (s.pc t).Free) (hf' : p.Free)
    (hl : ∀ u, (update s.pc t p u).inTurnstile = true ↔ l = some u) (hp : p.Local a t)
    (hn : (s.moved t p w l).Encoded a) (hh : (s.moved t p w l).Waited → ∃ q, ((s.moved t p w l).holders q).Nonempty)
    (hb : ((s.moved t p w l).waiting .reader).Nonempty → (s.moved t p w l).holders .writer = ∅ →
      ((s.moved t p w l).waiting .writer).Nonempty ∨ ∃ u, (update s.pc t p u).inWindow = true)
    (hv : ∀ u rw, (update s.pc t p u).leaving = some rw → (s.moved t p w l).Waited ∧ (rw = .reader →
      (s.moved t p w l).holders .reader = {u} ∧ ((s.moved t p w l).waiting .writer).Nonempty)) :
    Inv a (s.moved t p w l) := by
  have hq (u : T) : (update s.pc t p u).queued = (s.pc u).queued := by
    by_cases hu : u = t
    · rw [hu, update_self, hf.1, hf'.1]
    · rw [update_of_ne hu]
  have hw (u : T) : (update s.pc t p u).waking = (s.pc u).waking := by
    by_cases hu : u = t
    · rw [hu, update_self, hf.2, hf'.2]
    · rw [update_of_ne hu]
  have hr (q : Krw) (u : T) : update s.pc t p u = .granted q ↔ s.pc u = .granted q := by
    by_cases hu : u = t
    · rw [hu, update_self]
      constructor <;> intro hg
      · exact absurd hf'.1 (by simp [hg, queued])
      · exact absurd hf.1 (by simp [hg, queued])
    · rw [update_of_ne hu]
  refine ⟨hn, hl, fun q u => ?_, h.nodup, fun q u => ?_, hh, hb, hv, fun u => ?_⟩
  · simp only [moved, hq, h.queue]
  · simp only [moved, hr, hw, h.granted]
  · by_cases hu : u = t
    · simpa only [moved, hu, update_self] using hp
    · simpa only [moved, update_of_ne hu] using h.known u

theorem Inv.lock_same (hp : p.inTurnstile = (s.pc t).inTurnstile) (u : T) :
    (update s.pc t p u).inTurnstile = true ↔ s.tsLock = some u := by
  by_cases hu : u = t
  · rw [hu, update_self, hp, h.lock]
  · rw [update_of_ne hu, h.lock]

theorem Inv.lock_acquire (hp : p.inTurnstile = true) (hl : s.tsLock = none) (u : T) :
    (update s.pc t p u).inTurnstile = true ↔ some t = some u := by
  by_cases hu : u = t
  · simp [hu, hp]
  · rw [update_of_ne hu, h.lock, hl]
    simp [Ne.symm hu]

theorem Inv.lock_release (hp : p.inTurnstile = false) (ht : (s.pc t).inTurnstile = true) (u : T) :
    (update s.pc t p u).inTurnstile = true ↔ none = some u := by
  by_cases hu : u = t
  · simp [hu, hp]
  · rw [update_of_ne hu, h.lock, (h.lock t).mp ht]
    simp [Ne.symm hu]

/-- A move that changes neither the word nor who holds the lock or waits for it. -/
theorem Inv.quiet (hf : (s.pc t).Free) (hf' : p.Free) (hh : p.holds = (s.pc t).holds)
    (hwt : p.waits = (s.pc t).waits) (hn : (s.pc t).inWindow = true → p.inWindow = true)
    (hl : ∀ u, (update s.pc t p u).inTurnstile = true ↔ l = some u) (hp : p.Local a t)
    (hv : ∀ rw, p.leaving = some rw → s.Waited ∧ (rw = .reader →
      s.holders .reader = {t} ∧ (s.waiting .writer).Nonempty)) :
    Inv a (s.moved t p s.word l) := by
  refine h.move hf hf' hl hp ?_ ?_ ?_ fun u rw hu => ?_
  · unfold State.Encoded
    simp only [holders_same _ hh, waiting_same _ hwt, waited_same hwt]
    exact h.encoded
  · simp only [holders_same _ hh, waited_same hwt]
    exact h.held
  · simp only [holders_same _ hh, waiting_same _ hwt]
    intro hr hw
    refine (h.barred hr hw).imp_right fun ⟨u, hu⟩ => ⟨u, ?_⟩
    by_cases ht : u = t
    · rw [ht, update_self]
      exact hn (ht ▸ hu)
    · rwa [update_of_ne ht]
  · simp only [holders_same _ hh, waiting_same _ hwt, waited_same hwt]
    by_cases ht : u = t
    · rw [ht, update_self] at hu
      exact ht ▸ hv rw hu
    · rw [update_of_ne ht] at hu
      exact h.leaving u rw hu

end

/-- From one place to another where the thread is on no queue and wakes no one, with the same lock of the turnstile. -/
structure Pc.Shift (a : Addresses T) (t : T) (q p : Pc) : Prop where
  free : q.Free
  free' : p.Free
  waits : p.waits = q.waits
  inTurnstile : p.inTurnstile = q.inTurnstile
  leaving : p.leaving = none
  known : p.Local a t

theorem Inv.rehold (h : Inv a s) (hs : (s.pc t).Shift a t p) (hn : ∀ u, (s.pc u).leaving ≠ some .reader)
    (hen : (s.moved t p w s.tsLock).Encoded a) (hh : s.Waited → ∃ q, ((s.moved t p w s.tsLock).holders q).Nonempty)
    (hb : (s.waiting .reader).Nonempty → (s.moved t p w s.tsLock).holders .writer = ∅ →
      (s.waiting .writer).Nonempty ∨ ∃ u, (update s.pc t p u).inWindow = true) :
    Inv a (s.moved t p w s.tsLock) := by
  refine h.move hs.free hs.free' (h.lock_same hs.inTurnstile) hs.known hen ?_ ?_ fun u rw hu => ?_
  · simpa only [waited_same hs.waits] using hh
  · simpa only [waiting_same _ hs.waits] using hb
  · have ht : u ≠ t := by
      rintro rfl
      simp [hs.leaving] at hu
    rw [update_of_ne ht] at hu
    have hw : rw ≠ .reader := by
      rintro rfl
      exact hn u hu
    exact ⟨(waited_same hs.waits).mpr (h.leaving u rw hu).1, fun hr => absurd hr hw⟩

/-! ### Taking and dropping the lock -/

omit [DecidableEq T] in
theorem State.Waited.of_reader (h : (s.waiting .reader).Nonempty) : s.Waited := ⟨_, h⟩

/-- A move that leaves the waiters alone leaves the wait bits alone. -/
theorem encoded_moved {wanted waiters : Bool} (hw : p.waits = (s.pc t).waits)
    (hb : wanted = true ↔ (s.waiting .writer).Nonempty) (hc : waiters = true ↔ s.Waited)
    (h : (∃ u, (s.moved t p w l).holders .writer = {u} ∧ (s.moved t p w l).holders .reader = ∅ ∧
        w = encode (a.num u) true wanted waiters) ∨
      (s.moved t p w l).holders .writer = ∅ ∧
        w = encode ((s.moved t p w l).holders .reader).card false wanted waiters) :
    (s.moved t p w l).Encoded a :=
  ⟨wanted, waiters, by rwa [waiting_same _ hw], by rwa [waited_same hw], h⟩

omit [Fintype T] in
theorem window_update (ht : (s.pc t).inWindow = false) (h : ∃ u, (s.pc u).inWindow = true) :
    ∃ u, (update s.pc t p u).inWindow = true := by
  obtain ⟨u, hu⟩ := h
  refine ⟨u, ?_⟩
  rwa [update_of_ne]
  rintro rfl
  simp [ht] at hu

theorem Inv.acquire_reader (h : Inv a s) (hpc : s.pc t = .enterCas .reader s.word ∨ s.pc t = .tryCas s.word)
    (hs : Krw.busy s.word .reader = 0) : Inv a (s.moved t (.held .reader) (s.word + 8) s.tsLock) := by
  obtain ⟨hh, hn, hwn⟩ : (s.pc t).Shift a t (.held .reader) ∧ (s.pc t).holds = none ∧ (s.pc t).inWindow = false := by
    obtain hpc | hpc := hpc <;> rw [hpc] <;> exact ⟨⟨⟨rfl, rfl⟩, ⟨rfl, rfl⟩, rfl, rfl, rfl, trivial⟩, rfl, rfl⟩
  obtain ⟨wanted, waiters, hb, hc, hen⟩ := h.encoded
  obtain ⟨u, -, -, hd⟩ | ⟨hw, hd⟩ := hen
  · rw [hd, busy_reader_encode] at hs
    simp at hs
  rw [hd, busy_reader_encode] at hs
  have hr : (s.moved t (.held .reader) (s.word + 8) s.tsLock).holders .reader = insert t (s.holders .reader) :=
    holders_insert rfl
  refine h.rehold hh (fun u hu => ?_) ?_ (fun _ => ⟨.reader, t, ?_⟩) fun hwr _ => ?_
  · have := ((h.leaving u _ hu).2 rfl).2
    simp [← hb, hs] at this
  · refine encoded_moved hh.waits hb hc (.inr ⟨?_, ?_⟩)
    · rw [holders_erase (by simp [holds]), hw, erase_empty]
    · have hmem : t ∉ s.holders .reader := by simp [hn]
      rw [hr, card_insert_of_notMem hmem, hd, encode, encode]
      omega
  · simp [hr]
  · exact (h.barred hwr hw).imp_right (window_update hwn)

theorem Inv.own (h : Inv a s) (hs : (s.pc t).Shift a t (.held .writer)) {wanted waiters : Bool}
    (hb : wanted = true ↔ (s.waiting .writer).Nonempty) (hc : waiters = true ↔ s.Waited)
    (hw : s.holders .writer = ∅) (hr : (s.holders .reader).erase t = ∅) (hn : ∀ u, (s.pc u).leaving ≠ some .reader)
    (hwr : w = encode (a.num t) true wanted waiters) : Inv a (s.moved t (.held .writer) w s.tsLock) := by
  have hw' : (s.moved t (.held .writer) w s.tsLock).holders .writer = {t} := by
    rw [holders_insert rfl, hw]
    rfl
  refine h.rehold hs hn (encoded_moved hs.waits hb hc (.inl ⟨t, hw', ?_, hwr⟩)) (fun _ => ⟨.writer, ?_⟩)
    fun _ ho => ?_
  · rw [holders_erase (by simp [holds]), hr]
  · simp [hw']
  · simp [hw'] at ho

theorem Inv.acquire_writer (h : Inv a s) (hpc : s.pc t = .enterCas .writer s.word ∨ s.pc t = .tryWrite)
    (hs : Krw.busy s.word .writer = 0) :
    Inv a (s.moved t (.held .writer) (s.word + Krw.value a t .writer) s.tsLock) := by
  obtain ⟨wanted, waiters, hb, hc, hn⟩ := h.encoded
  obtain ⟨u, -, -, hr⟩ | ⟨hw, hr⟩ := hn
  · rw [hr, busy_writer_encode] at hs
    exact absurd hs (a.pos u).ne'
  rw [hr, busy_writer_encode, card_eq_zero] at hs
  refine h.own ?_ hb hc hw (by rw [hs, erase_empty]) (fun u hu => ?_) ?_
  · obtain hpc | hpc := hpc <;> rw [hpc] <;> exact ⟨⟨rfl, rfl⟩, ⟨rfl, rfl⟩, rfl, rfl, rfl, trivial⟩
  · have := ((h.leaving u _ hu).2 rfl).1
    simp [hs] at this
  · rw [hr, hs, value_writer, encode, encode, card_empty]
    simp only [Bool.toNat_true, Bool.toNat_false]
    omega

omit [Fintype T] [DecidableEq T] in
theorem Pc.holds_of_leaving (h : p.leaving = some rw) : p.holds = some rw := by
  cases p <;> simp_all [leaving, holds]

omit [DecidableEq T] in
theorem Inv.leaving_alone (h : Inv a s) {u : T} {rw' : Krw} (hu : (s.pc u).leaving = some rw)
    (ht : (s.pc t).holds = some rw') : u = t := by
  have hu' := (s.mem_holders).mpr (holds_of_leaving hu)
  have ht' := (s.mem_holders).mpr ht
  obtain ⟨-, -, -, -, ⟨v, hw, hr, -⟩ | ⟨hw, -⟩⟩ := h.encoded
  · have hwr {x : T} {q : Krw} (hx : x ∈ s.holders q) : x = v := by
      cases q with
      | reader => simp [hr] at hx
      | writer => simpa [hw] using hx
    rw [hwr hu', hwr ht']
  · cases rw with
    | writer => simp [hw] at hu'
    | reader =>
      cases rw' with
      | writer => simp [hw] at ht'
      | reader =>
        rw [((h.leaving u _ hu).2 rfl).1] at ht'
        exact (mem_singleton.mp ht').symm

theorem Inv.exit_word (h : Inv a s) (ht : (s.pc t).holds = some rw) : ∃ wanted waiters : Bool,
    (wanted = true ↔ (s.waiting .writer).Nonempty) ∧ (waiters = true ↔ s.Waited) ∧
    s.word - rw.value a t = encode ((s.holders .reader).erase t).card false wanted waiters ∧
    (s.holders .writer).erase t = ∅ ∧ (rw = .writer → s.holders .reader = ∅) := by
  have hmem := s.mem_holders.mpr ht
  obtain ⟨wanted, waiters, hb, hc, hn⟩ := h.encoded
  refine ⟨wanted, waiters, hb, hc, ?_⟩
  obtain ⟨u, hw, hr, hwr⟩ | ⟨hw, hwr⟩ := hn
  · cases rw with
    | reader => simp [hr] at hmem
    | writer =>
      obtain rfl : t = u := by simpa [hw] using hmem
      refine ⟨?_, by rw [hw, erase_singleton], fun _ => hr⟩
      rw [hwr, hr, value_writer, encode, encode, erase_empty, card_empty]
      simp only [Bool.toNat_true, Bool.toNat_false]
      omega
  · cases rw with
    | writer => simp [hw] at hmem
    | reader =>
      refine ⟨?_, by rw [hw, erase_empty], nofun⟩
      have := card_erase_add_one hmem
      rw [hwr, encode, encode, Krw.value]
      omega

/-- A `casip` of an exit that is not the final one of a lock with waiters. -/
theorem Inv.release (h : Inv a s) (hpc : s.pc t = .exitCas rw s.word) :
    Inv a (s.moved t .idle (s.word - rw.value a t) s.tsLock) := by
  have hl : ¬finalExit (s.word - rw.value a t) := by
    have := h.known t
    rwa [hpc] at this
  have hh : (s.pc t).holds = some rw := by rw [hpc]; rfl
  have hs : (s.pc t).Shift a t .idle := by
    rw [hpc]
    exact ⟨⟨rfl, rfl⟩, ⟨rfl, rfl⟩, rfl, rfl, rfl, trivial⟩
  have her (q : Krw) : (s.moved t .idle (s.word - rw.value a t) s.tsLock).holders q = (s.holders q).erase t :=
    holders_erase (by simp [holds])
  obtain ⟨wanted, waiters, hb, hc, hn, hw, hr⟩ := h.exit_word hh
  -- another reader stays for those who wait
  have hrs (hd : s.Waited) : ((s.holders .reader).erase t).Nonempty := by
    rw [hn, finalExit, locked_encode, hasWaiters_encode, hc] at hl
    rw [← card_pos]
    by_contra hn0
    exact hl ⟨by omega, hd⟩
  refine h.rehold hs (fun u hu => ?_) (encoded_moved hs.waits hb hc (.inr ⟨?_, ?_⟩)) (fun hd => ⟨.reader, ?_⟩)
    fun hwr _ => ?_
  · rw [h.leaving_alone hu hh, hpc] at hu
    cases hu
  · rw [her, hw]
  · rw [her, hn]
  · rw [her]
    exact hrs hd
  · cases rw with
    | writer => simpa [hr rfl] using hrs (.of_reader hwr)
    | reader =>
      rw [erase_eq_of_notMem (by simp [hpc, holds])] at hw
      exact (h.barred hwr hw).imp_right (window_update (by simp [hpc, inWindow]))

theorem Inv.downAdd (h : Inv a s) (hpc : s.pc t = .downAdd) (hw : w = s.word + 8 - Krw.value a t .writer)
    (hp : p = if hasWaiters w then .downLookup else .held .reader) : Inv a (s.moved t p w s.tsLock) := by
  have hmem : t ∈ s.holders .writer := by simp [hpc, holds]
  obtain ⟨wanted, waiters, hb, hc, ⟨u, hw', hr, ho⟩ | ⟨hw', -⟩⟩ := h.encoded
  swap
  · simp [hw'] at hmem
  obtain rfl : t = u := by simpa [hw'] using hmem
  have hn : w = encode 1 false wanted waiters := by
    rw [hw, ho, value_writer, encode, encode]
    simp only [Bool.toNat_true, Bool.toNat_false]
    omega
  have ht : hasWaiters w ↔ s.Waited := by rw [hn, hasWaiters_encode, hc]
  -- the window opens exactly when someone waits
  have hs : p = .held .reader ∧ ¬s.Waited ∨ p = .downLookup := by
    by_cases hd : hasWaiters w
    · exact .inr (by rw [hp, if_pos hd])
    · exact .inl ⟨by rw [hp, if_neg hd], fun h => hd (ht.mpr h)⟩
  obtain ⟨hh, hsh⟩ : p.holds = some .reader ∧ (s.pc t).Shift a t p := by
    obtain ⟨rfl, -⟩ | rfl := hs <;> rw [hpc] <;> exact ⟨rfl, ⟨⟨rfl, rfl⟩, ⟨rfl, rfl⟩, rfl, rfl, rfl, trivial⟩⟩
  have hr' : (s.moved t p w s.tsLock).holders .reader = {t} := by
    rw [holders_insert hh, hr]
    rfl
  refine h.rehold hsh (fun u hu => ?_) ?_ (fun _ => ⟨.reader, ?_⟩) fun hwr _ => ?_
  · have := ((h.leaving u _ hu).2 rfl).1
    simp [hr] at this
  · refine encoded_moved hsh.waits hb hc (.inr ⟨?_, ?_⟩)
    · rw [holders_erase (by simp [hh]), hw', erase_singleton]
    · rw [hr', card_singleton, hn]
  · simp [hr']
  · obtain ⟨-, hno⟩ | rfl := hs
    · exact absurd (.of_reader hwr) hno
    · exact .inr ⟨t, by simp [inWindow]⟩

theorem Inv.upgrade (h : Inv a s) (hpc : s.pc t = .upCas s.word) :
    Inv a (s.moved t (.held .writer) (s.word + Krw.value a t .writer - 8) s.tsLock) := by
  have hmem : t ∈ s.holders .reader := by simp [hpc, holds]
  have ho : s.word >>> 1 <<< 1 = 8 := by
    have := h.known t
    rwa [hpc] at this
  obtain ⟨wanted, waiters, hb, hc, hn⟩ := h.encoded
  obtain ⟨u, -, hr, -⟩ | ⟨hw, hwr⟩ := hn
  · simp [hr] at hmem
  -- apart from the lowest bit the word is that of one reader, so no writer waits
  obtain ⟨hon, rfl⟩ : (s.holders .reader).card = 1 ∧ wanted = false := by
    rw [hwr, encode] at ho
    cases wanted <;> cases waiters <;> simp at ho ⊢ <;> omega
  have hr : s.holders .reader = {t} := by
    obtain ⟨u, hu⟩ := card_eq_one.mp hon
    rw [hu, mem_singleton] at hmem
    rw [hu, hmem]
  refine h.own ?_ hb hc hw (by rw [hr, erase_singleton]) (fun u hu => ?_) ?_
  · rw [hpc]
    exact ⟨⟨rfl, rfl⟩, ⟨rfl, rfl⟩, rfl, rfl, rfl, trivial⟩
  · have := ((h.leaving u _ hu).2 rfl).2
    simp [← hb] at this
  · rw [hwr, value_writer, encode, encode]
    simp only [Bool.toNat_true, Bool.toNat_false]
    omega

/-! ### Waiting -/

/-- A thread that owns the lock of the turnstile sets the wait bits, or finds them set. -/
theorem Inv.announce (h : Inv a s) (hpc : s.pc t = .enterTest rw ∨ s.pc t = .enterSet rw s.word)
    (hbs : rw.busy s.word ≠ 0) : Inv a (s.moved t (.enterBlock rw) (s.word ||| rw.wait) s.tsLock) := by
  set s' := s.moved t (.enterBlock rw) (s.word ||| rw.wait) s.tsLock with hs'
  have ht (q : Krw) (u : T) : u ∈ s'.waiting q ↔ u ∈ s.waiting q ∨ u = t ∧ q = rw := by
    by_cases hu : u = t
    · subst hu
      obtain hpc | hpc := hpc <;> simp [hs', moved, hpc, waits, eq_comm]
    · simp [hs', moved, hu]
  have hm (q : Krw) (hq : (s.waiting q).Nonempty) : (s'.waiting q).Nonempty := by
    obtain ⟨u, hu⟩ := hq
    exact ⟨u, (ht q u).mpr (.inl hu)⟩
  have hs : (s'.waiting rw).Nonempty := ⟨t, (ht rw t).mpr (.inr ⟨rfl, rfl⟩)⟩
  have ho (q : Krw) (hq : q ≠ rw) (hne : (s'.waiting q).Nonempty) : (s.waiting q).Nonempty := by
    obtain ⟨u, hu⟩ := hne
    exact ⟨u, ((ht q u).mp hu).resolve_right fun h => hq h.2⟩
  have hh (q : Krw) : s'.holders q = s.holders q :=
    holders_same q (by obtain hpc | hpc := hpc <;> simp [hpc, holds])
  obtain ⟨wanted, waiters, hb, hc, hn⟩ := h.encoded
  refine h.move ?_ ⟨rfl, rfl⟩ (h.lock_same ?_) trivial ?_ (fun _ => ?_) (fun hr hw => ?_) fun u q hu => ?_
  · obtain hpc | hpc := hpc <;> simp [hpc, Pc.Free, queued, waking]
  · obtain hpc | hpc := hpc <;> simp [hpc, inTurnstile]
  · refine ⟨wanted || rw = .writer, true, ?_, ?_, ?_⟩
    · cases rw with
      | reader => simpa [hb] using ⟨hm .writer, ho .writer (by decide)⟩
      | writer => simpa using hs
    · simpa using ⟨rw, hs⟩
    · rw [hh, hh]
      refine hn.imp (fun ⟨u, hw, hr, hwr⟩ => ⟨u, hw, hr, ?_⟩) fun ⟨hw, hwr⟩ => ⟨hw, ?_⟩
      all_goals
        rw [← or_wait_encode, ← hwr]
        rfl
  · rw [← hs']
    simp only [hh]
    -- someone holds the lock, or waits for one who does
    obtain ⟨u, hw, -, -⟩ | ⟨hw, hwr⟩ := hn
    · exact ⟨.writer, by simp [hw]⟩
    cases rw with
    | reader =>
      rw [hwr, Ne, busy_reader_encode] at hbs
      exact h.held ⟨.writer, hb.mp (by simpa using hbs)⟩
    | writer =>
      rw [hwr, Ne, busy_writer_encode, ← Ne, card_ne_zero] at hbs
      exact ⟨.reader, hbs⟩
  · rw [hh] at hw
    left
    cases rw with
    | reader =>
      obtain ⟨u, hw', -, -⟩ | ⟨-, hwr⟩ := hn
      · simp [hw'] at hw
      rw [hwr, Ne, busy_reader_encode] at hbs
      exact hm _ (hb.mp (by simpa using hbs))
    | writer => exact hs
  · have hut : u ≠ t := by
      rintro rfl
      simp [Pc.leaving] at hu
    rw [update_of_ne hut] at hu
    obtain ⟨⟨q', hq'⟩, hd⟩ := h.leaving u q hu
    rw [hh]
    exact ⟨⟨q', hm q' hq'⟩, fun hq => ⟨(hd hq).1, hm _ (hd hq).2⟩⟩

end Move

/-! ### The queues -/

section Queue

variable {a : Addresses T} {s : State T} {t : T} {p : Pc} {n : ℕ} {α : Type}

section

omit [Fintype T] [DecidableEq T]

theorem State.mem_sleepqInsert {q : List T} {u : T} : u ∈ s.sleepqInsert q t ↔ u = t ∨ u ∈ q := by
  conv_rhs => rw [← List.takeWhile_append_dropWhile (p := fun u => s.pri t ≤ s.pri u) (l := q)]
  simp only [sleepqInsert, List.mem_append, List.mem_cons]
  tauto

theorem State.nodup_sleepqInsert {q : List T} (hq : q.Nodup) (ht : t ∉ q) : (s.sleepqInsert q t).Nodup := by
  have h : (t :: q).Nodup := List.nodup_cons.mpr ⟨ht, hq⟩
  refine (List.Perm.nodup_iff ?_).mp h
  conv_lhs => rw [← List.takeWhile_append_dropWhile (p := fun u => s.pri t ≤ s.pri u) (l := q)]
  exact List.perm_middle.symm

end

theorem mem_drop_of_not_mem_take {l : List α} {x : α} (hx : x ∉ l.take n) : x ∈ l.drop n ↔ x ∈ l := by
  refine ⟨List.mem_of_mem_drop, fun h => ?_⟩
  rw [← List.take_append_drop n l, List.mem_append] at h
  exact h.resolve_left hx

theorem not_mem_drop {l : List α} {x : α} (hl : l.Nodup) (hx : x ∈ l.take n) : x ∉ l.drop n := by
  rw [← List.take_append_drop n l, List.nodup_append] at hl
  exact fun hd => hl.2.2 x hx x hd rfl

omit [DecidableEq T] in
theorem Inv.alone (h : Inv a s) (ht : (s.pc t).inTurnstile = true) {u : T} (hu : (s.pc u).inTurnstile = true) :
    u = t := by
  have := (h.lock u).mp hu
  rw [(h.lock t).mp ht] at this
  exact (Option.some.inj this).symm

omit [Fintype T] [DecidableEq T] in
theorem Pc.inTurnstile_of_waking (h : p.waking = some (q, n)) : p.inTurnstile = true := by
  cases p <;> simp_all [waking, inTurnstile]

section

omit [DecidableEq T]

/-- A waker knows whom it wakes. -/
theorem Inv.granted_iff (h : Inv a s) (ht : (s.pc t).inTurnstile = true) (q : Krw) (u : T) :
    s.pc u = .granted q ↔ ∃ n, (s.pc t).waking = some (q, n) ∧ u ∈ (s.queue q).take n := by
  rw [h.granted]
  constructor
  · rintro ⟨v, n, hv, hu⟩
    obtain rfl := h.alone ht (inTurnstile_of_waking hv)
    exact ⟨n, hv, hu⟩
  · rintro ⟨n, hn, hu⟩
    exact ⟨t, n, hn, hu⟩

/-- Who else waits is on a queue, for the owner of the turnstile that has not handed on the lock. -/
theorem Inv.waits_iff (h : Inv a s) (ht : (s.pc t).inTurnstile = true) (hk : (s.pc t).waking = none) (q : Krw)
    {u : T} (hu : u ≠ t) : (s.pc u).waits = some q ↔ u ∈ s.queue q := by
  have hn : (s.pc u).inTurnstile ≠ true := fun hin => hu (h.alone ht hin)
  have hg (q : Krw) : s.pc u ≠ .granted q := by
    rw [Ne, h.granted_iff ht]
    simp [hk]
  rw [h.queue]
  cases hp : s.pc u <;> simp_all [waits, queued, inTurnstile]

theorem Inv.requeue (h : Inv a s) {s' : State T} (hr : s'.word = s.word)
    (hh : ∀ u, (s'.pc u).holds = (s.pc u).holds) (hw : ∀ u, (s'.pc u).waits = (s.pc u).waits)
    (hwn : ∀ u, (s'.pc u).inWindow = (s.pc u).inWindow) (hl : ∀ u, (s'.pc u).leaving = (s.pc u).leaving)
    (hk : ∀ u, (s'.pc u).Local a u) (hc : ∀ u, (s'.pc u).inTurnstile = true ↔ s'.tsLock = some u)
    (hq : ∀ q u, u ∈ s'.queue q ↔ (s'.pc u).queued = some q) (hn : ∀ q, (s'.queue q).Nodup)
    (hg : ∀ q u, s'.pc u = .granted q ↔
      ∃ v n, (s'.pc v).waking = some (q, n) ∧ u ∈ (s'.queue q).take n) : Inv a s' := by
  have hH (q : Krw) : s'.holders q = s.holders q := by
    ext u
    simp [hh]
  have hW (q : Krw) : s'.waiting q = s.waiting q := by
    ext u
    simp [hw]
  have hWd : s'.Waited ↔ s.Waited := by
    unfold State.Waited
    simp only [hW]
  refine ⟨?_, hc, hq, hn, hg, ?_, ?_, ?_, hk⟩
  · unfold State.Encoded
    simp only [hH, hW, hWd, hr]
    exact h.encoded
  · simpa only [hH, hWd] using h.held
  · simpa only [hH, hW, hwn] using h.barred
  · simpa only [hH, hW, hWd, hl] using h.leaving

end

theorem Inv.block (h : Inv a s) (hpc : s.pc t = .enterBlock q) : Inv a (s.turnstileBlock t q) := by
  have ht : (s.pc t).inTurnstile = true := by simp [hpc, inTurnstile]
  have hn (u : T) : (s.pc u).waking = none := by
    by_contra hne
    obtain ⟨⟨q', n⟩, hk⟩ := Option.ne_none_iff_exists'.mp hne
    obtain rfl := h.alone ht (inTurnstile_of_waking hk)
    simp [hpc, waking] at hk
  have hg (q' : Krw) (u : T) : s.pc u ≠ .granted q' := by
    rw [Ne, h.granted]
    simp [hn]
  have hp {β : Type} (f : Pc → β) (hf : f (.blocked q) = f (.enterBlock q)) (u : T) :
      f ((s.turnstileBlock t q).pc u) = f (s.pc u) := by
    by_cases hu : u = t
    · simp [hu, hpc, hf]
    · simp [hu]
  have hmem : t ∉ s.queue q := by simp [h.queue, hpc, queued]
  refine h.requeue rfl (hp _ rfl) (hp _ rfl) (hp _ rfl) (hp _ rfl) (fun u => ?_)
    (h.lock_release rfl ht) (fun q' u => ?_) (fun q' => ?_) fun q' u => ?_
  · by_cases hu : u = t
    · simp [hu]
    · simpa [hu] using h.known u
  · by_cases hu : u = t
    · by_cases hq : q' = q
      · simp [hq, hu, mem_sleepqInsert, queued]
      · simp [hq, hu, h.queue, hpc, queued, Ne.symm hq]
    · by_cases hq : q' = q
      · simp [hq, hu, mem_sleepqInsert, h.queue]
      · simp [hq, hu, h.queue]
  · by_cases hq : q' = q
    · simpa [hq] using nodup_sleepqInsert (h.nodup q) hmem
    · simpa [hq] using h.nodup q'
  · have hk (v : T) : ((s.turnstileBlock t q).pc v).waking = none := (hp _ rfl v).trans (hn v)
    simp only [hk]
    by_cases hu : u = t
    · simp [hu]
    · simp [hu, hg]

/-- `turnstile_wakeup`, after the word has handed the lock to the threads it wakes -/
theorem Inv.wakeup (h : Inv a s) (hk : (s.pc t).waking = some (q, n))
    (hp : p.holds = (s.pc t).holds) (hp' : p = .idle ∨ p = .held .reader) : Inv a (s.turnstileWakeup t q n p) := by
  have ht := inTurnstile_of_waking hk
  have hqd : (s.pc t).queued = none := by cases hc : s.pc t <;> simp_all [waking, queued]
  have hn : t ∉ s.queue q := by simp [h.queue, hqd]
  have hg (q' : Krw) (u : T) : s.pc u = .granted q' ↔ q' = q ∧ u ∈ (s.queue q).take n := by
    rw [h.granted_iff ht, hk]
    constructor
    · rintro ⟨m, hm, hu⟩
      obtain ⟨rfl, rfl⟩ : q = q' ∧ n = m := by simpa using hm
      exact ⟨rfl, hu⟩
    · rintro ⟨rfl, hu⟩
      exact ⟨n, rfl, hu⟩
  have hs {β : Type} (f : Pc → β) (hf : f (.held q) = f (.granted q)) (hft : f p = f (s.pc t)) (u : T) :
      f ((s.turnstileWakeup t q n p).pc u) = f (s.pc u) := by
    by_cases hu : u = t
    · simp [hu, hft]
    · by_cases hm : u ∈ (s.queue q).take n
      · rw [(hg q u).mpr ⟨rfl, hm⟩]
        simp [hu, hm, hf]
      · simp [hu, hm]
  have hnk (v : T) : ((s.turnstileWakeup t q n p).pc v).waking = none := by
    by_cases hv : v = t
    · obtain rfl | rfl := hp' <;> simp [hv, waking]
    · by_cases hm : v ∈ (s.queue q).take n
      · simp [hv, hm, waking]
      · by_contra hne
        simp only [turnstileWakeup, update_of_ne hv, if_neg hm] at hne
        obtain ⟨⟨q', m⟩, hk'⟩ := Option.ne_none_iff_exists'.mp hne
        exact hv (h.alone ht (inTurnstile_of_waking hk'))
  obtain ⟨hw, hwn, hl⟩ : p.waits = (s.pc t).waits ∧ p.inWindow = (s.pc t).inWindow ∧ p.leaving = (s.pc t).leaving := by
    obtain rfl | rfl := hp' <;> cases hc : s.pc t <;> simp_all [waking, waits, inWindow, Pc.leaving]
  refine h.requeue rfl (hs _ rfl hp) (hs _ rfl hw) (hs _ rfl hwn) (hs _ rfl hl) (fun u => ?_)
    (fun u => ?_) (fun q' u => ?_) (fun q' => ?_) fun q' u => ?_
  · by_cases hu : u = t
    · obtain rfl | rfl := hp' <;> simp [hu]
    · by_cases hm : u ∈ (s.queue q).take n
      · simp [hu, hm]
      · simpa [hu, hm] using h.known u
  · by_cases hu : u = t
    · obtain rfl | rfl := hp' <;> simp [hu, inTurnstile]
    · by_cases hm : u ∈ (s.queue q).take n
      · simp [hu, hm, inTurnstile]
      · simpa [hu, hm] using fun hin => hu (h.alone ht hin)
  · by_cases hu : u = t
    · have : u ∉ (s.turnstileWakeup t q n p).queue q' := by
        by_cases hq : q' = q
        · simpa [hq, hu] using fun hd => hn (List.mem_of_mem_drop hd)
        · simp [hq, hu, h.queue, hqd]
      obtain rfl | rfl := hp' <;> simpa [hu, queued] using this
    · by_cases hm : u ∈ (s.queue q).take n
      · by_cases hq : q' = q
        · simpa [hu, hq, hm, queued] using not_mem_drop (h.nodup q) hm
        · simp [hu, hq, hm, h.queue, (hg q u).mpr ⟨rfl, hm⟩, queued, Ne.symm hq]
      · by_cases hq : q' = q
        · simp [hu, hq, hm, mem_drop_of_not_mem_take hm, h.queue]
        · simp [hu, hq, hm, h.queue]
  · by_cases hq : q' = q
    · simpa [hq] using (h.nodup q).sublist (List.drop_sublist n _)
    · simpa [hq] using h.nodup q'
  · simp only [hnk]
    by_cases hu : u = t
    · obtain rfl | rfl := hp' <;> simp [hu]
    · by_cases hm : u ∈ (s.queue q).take n
      · simp [hu, hm]
      · simp [hu, hm, hg]

end Queue

end Sol8.Os.Rwlock
