import Vllm.Shm.QueueProgress

/-! A call of `dequeue` that times out before its slot can be left out of a run. One that times out
on the socket leaves the reader one slot ahead of it. -/
namespace Vllm.Shm
open Interleaving ReaderPhase
variable {b : ShmRingBuffer}

/-- The call waits for its slot. -/
def ReaderPhase.Checking : ReaderPhase → Prop
  | .check | .checkWritten _ | .waiting => True
  | _ => False

namespace MessageQueue
variable {q q' : MessageQueue b} {r r' : Fin b.nReader} {e : Event b}

theorem setPhase_setPhase (q : MessageQueue b) (r : Fin b.nReader) (phase phase' : ReaderPhase) :
    (q.setPhase r phase).setPhase r phase' = q.setPhase r phase' := by
  simp [setPhase, setReader]

theorem setPhase_self {phase : ReaderPhase} (h : (q.readers r).phase = phase) :
    q.setPhase r phase = q := by
  subst h
  simp [setPhase, setReader]

theorem setPhase_readers_of_ne (hne : r' ≠ r) (phase : ReaderPhase) :
    (q.setPhase r phase).readers r' = q.readers r' := by
  rw [setPhase_readers, Function.update_of_ne hne]

theorem setReader_comm (hne : r' ≠ r) (reader : Reader) (phase : ReaderPhase) :
    (q.setReader r' reader).setPhase r phase = (q.setPhase r phase).setReader r' reader := by
  simp only [setPhase, setReader, Function.update_of_ne hne.symm]
  rw [Function.update_comm hne]

theorem setPhase_comm (hne : r' ≠ r) (phase' phase : ReaderPhase) :
    (q.setPhase r' phase').setPhase r phase = (q.setPhase r phase).setPhase r' phase' := by
  refine (setReader_comm hne { q.readers r' with phase := phase' } phase).trans ?_
  change _ = (q.setPhase r phase).setReader r'
    { (q.setPhase r phase).readers r' with phase := phase' }
  rw [setPhase_readers_of_ne hne]

/-- The others do the same whatever a reader's phase is. -/
theorem Moves.setPhase (hm : Moves q e q') (he : e.isBy r = false) (phase : ReaderPhase) :
    Moves (q.setPhase r phase) e (q'.setPhase r phase) := by
  have hother : ∀ {r'}, decide (r' = r) = false → r' ≠ r := fun h => of_decide_eq_false h
  cases hm with
  | enqueue hphase => exact .enqueue hphase
  | count hphase hnext => exact .count hphase hnext
  | occupied hphase hnext hwritten hcount => exact .occupied hphase hnext hwritten hcount
  | vacant hphase hnext hfree => exact .vacant hphase hnext hfree
  | retryWrite hphase => exact .retryWrite hphase
  | acquire hphase => exact .acquire hphase
  | copied hphase => exact .copied hphase
  | store hphase hoffset => exact .store hphase hoffset
  | indexError hphase hoffset => exact .indexError hphase hoffset
  | overflowError hphase => exact .overflowError hphase
  | clear hphase hnext => exact .clear hphase hnext
  | publish hphase hnext => exact .publish hphase hnext
  | send hphase => exact .send hphase
  | writeTimeout hphase => exact .writeTimeout hphase
  | dequeue hphase =>
    have hne := hother he
    rw [setPhase_comm hne]
    exact .dequeue (by rw [setPhase_readers_of_ne hne]; exact hphase)
  | readFlag hphase =>
    have hne := hother he
    rw [setPhase_comm hne]
    have hm := Moves.readFlag (q := q.setPhase r phase)
      (by rw [setPhase_readers_of_ne hne]; exact hphase)
    rwa [setPhase_readers_of_ne hne] at hm
  | unreadable hphase hflags =>
    have hne := hother he
    rw [setPhase_comm hne]
    refine .unreadable (by rw [setPhase_readers_of_ne hne]; exact hphase) ?_
    rw [setPhase_readers_of_ne hne]
    exact hflags
  | readable hphase hwritten hread =>
    have hne := hother he
    rw [setPhase_comm hne]
    refine .readable (by rw [setPhase_readers_of_ne hne]; exact hphase) ?_ hread
    rw [setPhase_readers_of_ne hne]
    exact hwritten
  | retryRead hphase =>
    have hne := hother he
    rw [setPhase_comm hne]
    exact .retryRead (by rw [setPhase_readers_of_ne hne]; exact hphase)
  | load hphase =>
    have hne := hother he
    rw [setPhase_comm hne]
    have hm := Moves.load (q := q.setPhase r phase)
      (by rw [setPhase_readers_of_ne hne]; exact hphase)
    rwa [setPhase_readers_of_ne hne] at hm
  | loadFails hphase =>
    have hne := hother he
    rw [setPhase_comm hne]
    exact .loadFails (by rw [setPhase_readers_of_ne hne]; exact hphase)
  | loaded hphase =>
    have hne := hother he
    rw [setPhase_comm hne]
    exact .loaded (by rw [setPhase_readers_of_ne hne]; exact hphase)
  | @markOverflow r' hphase =>
    have hne := hother he
    have hm := Moves.markOverflow (q := q.setPhase r phase)
      (by rw [setPhase_readers_of_ne hne]; exact hphase)
    rw [taken_setPhase, setPhase_readers_of_ne hne, ← setReader_comm hne] at hm
    exact hm
  | @markObject r' main oob hphase =>
    have hne := hother he
    have hm := Moves.markObject (q := q.setPhase r phase)
      (by rw [setPhase_readers_of_ne hne]; exact hphase)
    rw [taken_setPhase, setPhase_readers_of_ne hne, ← setReader_comm hne] at hm
    exact hm
  | leave hphase =>
    have hne := hother he
    rw [setReader_comm hne]
    have hm := Moves.leave (q := q.setPhase r phase)
      (by rw [setPhase_readers_of_ne hne]; exact hphase)
    rwa [setPhase_readers_of_ne hne] at hm
  | recv hphase hinbox =>
    have hne := hother he
    have hm := Moves.recv (q := q.setPhase r phase)
      (by rw [setPhase_readers_of_ne hne]; exact hphase) hinbox
    rw [taken_setPhase, setPhase_readers_of_ne hne, ← setReader_comm hne] at hm
    exact hm
  | readTimeout hphase =>
    have hne := hother he
    rw [setPhase_comm hne]
    exact .readTimeout (by rw [setPhase_readers_of_ne hne]; exact hphase)
  | recvTimeout hphase hinbox =>
    have hne := hother he
    rw [setPhase_comm hne]
    exact .recvTimeout (by rw [setPhase_readers_of_ne hne]; exact hphase) hinbox
  | deliver hflight => exact .deliver hflight

theorem Moves.checking (hm : Moves q e q') (he : e ≠ .dequeue r)
    (hchecking : (q'.readers r).phase.Checking) : (q.readers r).phase.Checking := by
  by_cases hby : e.isBy r
  · have hsame : ∀ {r'}, decide (r' = r) = true → r' = r := fun h => of_decide_eq_true h
    cases hm with
    | dequeue hphase => exact absurd (by rw [hsame hby]) he
    | readFlag hphase | unreadable hphase hflags | readable hphase hwritten hread
    | retryRead hphase =>
      obtain rfl := hsame hby
      rw [hphase]
      trivial
    | load hphase | loadFails hphase | loaded hphase | markOverflow hphase | markObject hphase
    | leave hphase | recv hphase hinbox =>
      obtain rfl := hsame hby
      simp [Checking] at hchecking
    | readTimeout hphase =>
      obtain rfl := hsame hby
      rw [hphase]
      trivial
    | recvTimeout hphase hinbox =>
      obtain rfl := hsame hby
      simp [Checking] at hchecking
    | _ => simp [Event.isBy] at hby
  · have hmoves := hm.setPhase (Bool.eq_false_of_not_eq_true hby) (q.readers r).phase
    rw [setPhase_self rfl] at hmoves
    have heq := Option.some.inj (hm.step_eq.symm.trans hmoves.step_eq)
    rw [heq, setPhase_readers, Function.update_self] at hchecking
    exact hchecking

theorem Moves.of_checking (hm : Moves q e q') (he : e ≠ .dequeue r) (hby : e.isBy r)
    (hchecking : (q'.readers r).phase.Checking) :
    q'.setPhase r .idle = q.setPhase r .idle := by
  have hsame : ∀ {r'}, decide (r' = r) = true → r' = r := fun h => of_decide_eq_true h
  cases hm with
  | dequeue hphase => exact absurd (by rw [hsame hby]) he
  | readFlag hphase | unreadable hphase hflags | readable hphase hwritten hread
  | retryRead hphase | load hphase | loadFails hphase | loaded hphase =>
    obtain rfl := hsame hby
    exact setPhase_setPhase ..
  | markOverflow hphase | markObject hphase | leave hphase | recv hphase hinbox =>
    obtain rfl := hsame hby
    simp [Checking] at hchecking
  | readTimeout hphase | recvTimeout hphase hinbox =>
    obtain rfl := hsame hby
    exact setPhase_setPhase ..
  | _ => simp [Event.isBy] at hby

/-- A call of `dequeue` that times out, and not on the socket: what happens later is what happens
without it. -/
theorem timed_out_dequeue_loses_nothing {mid later : List (Event b)}
    (hmid : .dequeue r ∉ mid) (htimeout : e = .readTimeout r ∨ e = .recvTimeout r)
    (hrun : run step q (.dequeue r :: mid ++ e :: later) = some q') (hslot : e ≠ .recvTimeout r) :
    run step q ((mid.filter fun e => !e.isBy r) ++ later) = some q' := by
  obtain rfl := htimeout.resolve_right hslot
  obtain ⟨q1, h1, hrun⟩ := run_cons.mp hrun
  obtain ⟨q2, hmidrun, hrun⟩ := run_append.mp hrun
  obtain ⟨q3, h3, hrun⟩ := run_cons.mp hrun
  cases step_moves h1 with
  | dequeue hidle =>
    cases step_moves h3 with
    | readTimeout hwaiting =>
      have hkind : ∀ e ∈ mid, e ≠ .dequeue r := fun e he heq => hmid (heq ▸ he)
      have hback : ∀ (s : MessageQueue b) e s', e ≠ .dequeue r → s.step e = some s' →
          (s'.readers r).phase.Checking → (s.readers r).phase.Checking := fun s e s' he hs =>
        (step_moves hs).checking he
      have hown : ∀ (s t : MessageQueue b) e s', t = s.setPhase r .idle → e.isBy r →
          e ≠ .dequeue r → s.step e = some s' → (s'.readers r).phase.Checking →
          t = s'.setPhase r .idle := fun s t e s' ht hby he hs hchecking =>
        ht.trans ((step_moves hs).of_checking he hby hchecking).symm
      have hother : ∀ (s t : MessageQueue b) e s', t = s.setPhase r .idle → ¬e.isBy r →
          e ≠ .dequeue r → s.step e = some s' → (s'.readers r).phase.Checking →
          ∃ t', t.step e = some t' ∧ t' = s'.setPhase r .idle := by
        rintro s t e s' rfl hby - hs -
        exact ⟨_, ((step_moves hs).setPhase (Bool.eq_false_of_not_eq_true hby) .idle).step_eq, rfl⟩
      have hwaits : (q2.readers r).phase.Checking := by
        rw [hwaiting]
        trivial
      obtain ⟨t, ht, rfl⟩ := run_erase hback hown hother hkind rfl hmidrun hwaits
      rw [setPhase_setPhase, setPhase_self hidle] at ht
      exact run_append.mpr ⟨_, ht, hrun⟩

/-- Two chunks of 64 bytes, and one reader. -/
def smallChunks : ShmRingBuffer := ⟨1, 64, 2, Nat.two_pos, by decide⟩

def onlyReader : Fin smallChunks.nReader := ⟨0, by decide⟩

/-- `pickle.dumps(bytes(60), protocol=5)`, which is too large for a chunk. -/
def largeStream : List UInt8 :=
  [0x80, 5, 0x95, 64, 0, 0, 0, 0, 0, 0, 0, 0x43, 60] ++ List.replicate 60 0 ++ [0x94, 0x2e]

/-- `pickle.dumps(7, protocol=5)` -/
def smallStream : List UInt8 := [0x80, 5, 0x4b, 7, 0x2e]

def largeMessage : Message := ⟨largeStream, [], by simp⟩

def smallMessage : Message := ⟨smallStream, [], by simp⟩

/-- The call waits for a slot that is not written yet, which is then written and read. -/
theorem timed_out_dequeue_loses_nothing_smallMessage :
    ∃ q : MessageQueue smallChunks,
      run step {} (([Event.read onlyReader, .enqueue smallMessage, .read onlyReader].filter
        fun e => !e.isBy onlyReader) ++ (List.replicate 18 .write ++ .dequeue onlyReader ::
          List.replicate 17 (.read onlyReader))) = some q ∧
      (q.readers onlyReader).returned.map (·.buffers) = [[smallStream]] := by
  have hrun := show (run step ({} : MessageQueue smallChunks) (.dequeue onlyReader ::
      [.read onlyReader, .enqueue smallMessage, .read onlyReader] ++ .readTimeout onlyReader ::
        (List.replicate 18 .write ++ .dequeue onlyReader ::
          List.replicate 17 (.read onlyReader)))).map
      (fun q => (q.readers onlyReader).returned.map (·.buffers)) = some [[smallStream]] by
    decide +kernel
  obtain ⟨q, hq, hreturned⟩ := Option.map_eq_some_iff.mp hrun
  exact ⟨q, timed_out_dequeue_loses_nothing (by simp) (.inl rfl) hq (by simp), hreturned⟩

/-- A call takes the slot of a large message and times out before the message arrives. The next
call returns the message after it; without the first call it returns the large one. -/
theorem exists_timed_out_dequeue_loses :
    ∃ (q q' q'' : MessageQueue smallChunks) (mid later later' : List (Event smallChunks)),
      Reachable step (fun _ _ => True) {} q ∧ .dequeue onlyReader ∉ mid ∧
      run step q (.dequeue onlyReader :: mid ++ .recvTimeout onlyReader :: later) = some q' ∧
      run step q ((mid.filter fun e => !e.isBy onlyReader) ++ later') = some q'' ∧
      (q'.readers onlyReader).returned.map (·.buffers) = [[smallStream]] ∧
      (q''.readers onlyReader).returned.map (·.buffers) = [[largeStream]] := by
  have hsend := show (run step ({} : MessageQueue smallChunks)
      (.enqueue largeMessage :: List.replicate 8 .write)).isSome by decide +kernel
  obtain ⟨q, hq⟩ := Option.isSome_iff_exists.mp hsend
  have hreach : Reachable step (fun _ _ => True) {} q := Reachable.init.run (by simp) hq
  have hlost := show (run step ({} : MessageQueue smallChunks)
      ((.enqueue largeMessage :: List.replicate 8 .write) ++
        (.dequeue onlyReader :: List.replicate 5 (.read onlyReader) ++ .recvTimeout onlyReader ::
          (.deliver onlyReader :: .enqueue smallMessage :: List.replicate 18 .write ++
            .dequeue onlyReader :: List.replicate 17 (.read onlyReader))))).map
      (fun q => (q.readers onlyReader).returned.map (·.buffers)) = some [[smallStream]] by
    decide +kernel
  obtain ⟨q', hq', hreturned'⟩ := Option.map_eq_some_iff.mp hlost
  have hkept := show (run step ({} : MessageQueue smallChunks)
      ((.enqueue largeMessage :: List.replicate 8 .write) ++
        ((List.replicate 5 (.read onlyReader)).filter (fun e => !e.isBy onlyReader) ++
          (.deliver onlyReader :: .dequeue onlyReader ::
            List.replicate 6 (.read onlyReader))))).map
      (fun q => (q.readers onlyReader).returned.map (·.buffers)) =
        some [[largeStream]] by
    decide +kernel
  obtain ⟨q'', hq'', hreturned''⟩ := Option.map_eq_some_iff.mp hkept
  obtain ⟨t, ht, hq'⟩ := run_append.mp hq'
  obtain rfl := Option.some.inj (hq.symm.trans ht)
  obtain ⟨t', ht', hq''⟩ := run_append.mp hq''
  obtain rfl := Option.some.inj (hq.symm.trans ht')
  exact ⟨q, q', q'', _, _, _, hreach, by simp, hq', hq'', hreturned', hreturned''⟩

end MessageQueue

end Vllm.Shm
