/-
# Calls that release what they have created

A call of `huf_encode` or `huf_decode` creates its object, runs, and releases the
object with one routine wherever it stops. The routine is safe if it finds all
pointers set. They are once the structure of the buffered reader is there, which is
created last.
-/

import LibHuffman.Allocation.Creation
import LibHuffman.Allocation.Trees

namespace LibHuffman

open Foundation Allocating Routine

variable {ρ ω γ : Type}

/-- The release after a run ends without a fault; a call without one of its streams
returns a code; and a call in which an allocation fails returns the code for it, and
is the call without failures up to there. A fault that the call has without failures
as well (a step in an empty tree, a block with all byte values) is not counted. -/
structure FailsSafely (body cleanup : CRoutine (SelfRun γ ρ ω) Unit)
    (config : Option (HufConfig ρ ω)) (world : World ρ ω) : Prop where
  released : ∀ r s, body (none, world) = .ok (r, s) → ∃ q s', cleanup s = .ok (q, s')
  missing : (∀ c, config = some c → c.reader = none ∨ c.writer = none) →
    ∃ code world', withLocal none (ensuring body cleanup) world = .ok (.error code, world')
  allocation : FollowsSchedule world.heap.allocations (fun _ => True) (fun _ _ => True)
    (withLocal none (ensuring body cleanup) world)
    (withLocal none (ensuring body cleanup) (schedule [] world))

/-- Where an initialization stops: before there is a reader, or at the buffer of the
reader. -/
inductive Stopped {σ : Type} [Allocating σ] (n : ℕ) (NoReader Whole : σ → Prop)
    (config : HufConfig ρ ω) (world : World ρ ω) : HufError → σ → Prop
  | early {code : HufError} {s : σ} (hreader : NoReader s)
      (hready : ¬ Ready n (some config) world) : Stopped n NoReader Whole config world code s
  | late {j : ℕ} {s : σ} (hready : Ready n (some config) world)
      (hrefused : Refused world.heap.allocations j)
      (hallocations : allocations s = world.heap.allocations.drop (j + 1)) (hwhole : Whole s) :
      Stopped n NoReader Whole config world .memoryAllocation s

/-- What an initialization leaves when it ends with an object: as many allocations as
it has made, and the object that it creates without failures. -/
structure Started {σ : Type} [Allocating σ] (n : ℕ) (New : σ → Prop)
    (config : HufConfig ρ ω) (world : World ρ ω) (other : Outcome Fault HufError σ Unit) (s : σ) :
    Prop where
  ready : Ready n (some config) world
  granted : ∃ k, Granted world.heap.allocations k ∧ allocations s = world.heap.allocations.drop k
  same : other = .ok (.ok (), schedule [] s)
  new : New s

section

variable {n : ℕ} {NoReader Whole New : SelfRun γ ρ ω → Prop}
  {init : Option (HufConfig ρ ω) → CRoutine (SelfRun γ ρ ω) Unit}
  {blocks cleanup : CRoutine (SelfRun γ ρ ω) Unit}

/-- A call that is ready follows itself without failures. -/
theorem body_endures (config : Option (HufConfig ρ ω))
    (hinit : ∀ c, config = some c → ∀ world, Ended (Stopped n NoReader Whole c world)
      (fun _ => Started n New c world (init (some c) (none, schedule [] world)))
      (init (some c) (none, world)))
    (hblocks : Endures Whole New blocks fun _ => Whole) :
    Endures Whole (fun s => s.1 = none ∧ Ready n config s.2)
      (do init config
          blocks) fun _ => Whole := by
  rintro first ⟨_, world⟩ hspared ⟨rfl, hready⟩
  obtain ⟨c, rfl, -⟩ := id hready
  have hended := hinit c rfl world
  generalize hrun : init (some c) (none, world) = outcome at hended
  have hsame : schedule [] ((none, world) : SelfRun γ ρ ω) = (none, schedule [] world) := rfl
  cases hended with
  | error hstop =>
      rw [Routine.bind_of_error hrun]
      cases hstop with
      | early _ hnot => exact absurd hready hnot
      | late _ hrefused hallocations hwhole =>
          apply Follows.stop
          refine ⟨rfl, hspared.trans_exhausted ?_, hwhole⟩
          show Exhausted world.heap.allocations _
          rw [hallocations]
          exact hrefused.exhausted
  | value hstarted =>
      rcases hstarted.granted with ⟨k, hgranted, hallocations⟩
      rw [Routine.bind_of_ok hrun, hsame, Routine.bind_of_ok hstarted.same]
      apply hblocks first _ (hspared.trans _) hstarted.new
      rw [hallocations]
      exact hgranted.spared

/-- A call fails safely if it is ready, and only then. -/
theorem failsSafely_iff (config : Option (HufConfig ρ ω)) (world : World ρ ω)
    (hnull : ∃ code, init none (none, world) = .ok (.error code, (none, world)))
    (hreader : ∀ world, NoReader (none, world))
    (hinit : ∀ c, config = some c → ∀ world, Ended (Stopped n NoReader Whole c world)
      (fun _ => Started n New c world (init (some c) (none, schedule [] world)))
      (init (some c) (none, world)))
    (hblocks : Endures Whole New blocks fun _ => Whole)
    (hfault : ∀ s, NoReader s → ∃ fault, cleanup s = .error fault)
    (hclean : Cleans Whole (fun _ => True) cleanup) :
    FailsSafely (do init config
                    blocks) cleanup config world ↔ Ready n config world := by
  apply Iff.intro
  · intro h
    by_contra hready
    have hstop : ∃ code s, init config (none, world) = .ok (.error code, s) ∧ NoReader s := by
      cases config with
      | none =>
          rcases hnull with ⟨code, hrun⟩
          exact ⟨code, _, hrun, hreader world⟩
      | some c =>
          have hended := hinit c rfl world
          generalize hrun : init (some c) (none, world) = outcome at hended
          cases hended with
          | error hstop =>
              cases hstop with
              | early hs _ => exact ⟨_, _, rfl, hs⟩
              | late hyes _ _ _ => exact absurd hyes hready
          | value hstarted => exact absurd hstarted.ready hready
    rcases hstop with ⟨code, s, hrun, hs⟩
    rcases h.released _ _ (Routine.bind_of_error hrun) with ⟨q, s', hok⟩
    rcases hfault s hs with ⟨fault, hbroken⟩
    exact nomatch hok.symm.trans hbroken
  · intro hready
    have hbody := body_endures config hinit hblocks
    constructor
    case released =>
      intro r s hrun
      have hwhole : Whole s := by
        have hfollows := hbody _ (none, world) (Spared.refl _) ⟨rfl, hready⟩
        generalize Bind.bind (init config) (fun _ => blocks) (schedule [] (none, world)) = other
          at hfollows
        rw [hrun] at hfollows
        cases hfollows with
        | stop hstop => exact hstop.inv
        | error hparallel => exact hparallel.inv
        | value hparallel => exact hparallel.inv
      rcases hclean s hwhole with ⟨q, s', hok, -⟩
      exact ⟨q, s', hok⟩
    case missing =>
      intro hmissing
      rcases hready with ⟨c, hc, hcr, hcw, -⟩
      exact ((hmissing c hc).elim hcr hcw).elim
    case allocation =>
      have hcall : Endures (fun _ => True) (Ready n config)
          (withLocal none (ensuring (do init config
                                        blocks) cleanup)) fun _ _ => True :=
        (hbody.ensuring hclean fun _ => hclean).withLocal.mono (fun _ h => h) (fun _ _ => trivial)
          fun _ _ _ => trivial
      exact hcall _ world (Spared.refl _) hready

end

/-! ## The order of creation -/

/-- The pointers of an object to its two buffered streams: the reader is the one that was set
last, and to set the writer keeps it. -/
structure StreamFields (reader : γ → Option (HufBufioReadWriter ρ))
    (setReader : Option (HufBufioReadWriter ρ) → γ → γ)
    (writer : γ → Option (HufBufioReadWriter ω))
    (setWriter : Option (HufBufioReadWriter ω) → γ → γ) : Prop where
  reader_setReader : ∀ bufio self, reader (setReader bufio self) = bufio
  reader_setWriter : ∀ bufio self, reader (setWriter bufio self) = reader self

/-- There is no object, or it has no reader. -/
def NoReader {β : Type} (reader : γ → Option β) (s : SelfRun γ ρ ω) : Prop :=
  ∀ self, s.1 = some self → reader self = none

section

variable {α : Type} {reader : γ → Option (HufBufioReadWriter ρ)} {self : γ}
  {Whole : SelfRun γ ρ ω → Prop} {config : HufConfig ρ ω} {world : World ρ ω} {n m k : ℕ}

/-- The block of the object itself. -/
theorem self_ended :
    Ended (Stopped n (NoReader reader) Whole config world)
      (fun _ s => Granted world.heap.allocations 1 ∧ s = (none, world.drop 1))
      (Routine.within SelfRun.allocator hufMalloc ((none, world) : SelfRun γ ρ ω)) := by
  have hblocks := one_le_bufioBlocks config.writerBufferSize
  apply Ended.within rfl (hufMalloc_ended (granted_zero _))
  · rintro code _ ⟨rfl, hrefused, rfl⟩
    exact .early (fun _ h => by cases h) (not_ready_of_refused hrefused (by omega))
  · rintro _ _ ⟨hgranted, rfl⟩
    exact ⟨hgranted, rfl⟩

/-- The initialization of one pointer of the object. -/
theorem creating_ended {field : γ → Option α} {assign : Option α → γ → γ} {a : α}
    {x : CRoutine (Creation α) Unit} (hx : Creates m a x) (hfield : field self = none)
    (h : Granted world.heap.allocations k) {Err : HufError → SelfRun γ ρ ω → Prop}
    (herror : ∀ j object, k ≤ j → j < k + m → Refused world.heap.allocations j →
      (object = none ↔ j = k) →
      Err .memoryAllocation (some (assign object self), world.drop (j + 1))) :
    Ended Err (fun _ s => Granted world.heap.allocations (k + m) ∧
        s = (some (assign (some a) self), world.drop (k + m)))
      (Routine.within (SelfRun.creating field assign) x (some self, world.drop k)) := by
  have hload : (SelfRun.creating field assign).load (some self, world.drop k) =
      .ok ⟨none, world.heap.allocations.drop k⟩ := by
    rw [← hfield]
    rfl
  exact hx.within hload h herror

/-- An initialization that stops at a pointer in front of the reader. -/
theorem early_stopped {code : HufError} {world' : World ρ ω} (hreader : reader self = none)
    (hready : ¬ Ready n (some config) world) :
    Stopped n (NoReader reader) Whole config world code (some self, world') := by
  refine .early ?_ hready
  rintro _ ⟨⟩
  exact hreader

/-- The initialization of a pointer in front of the reader. -/
theorem early_ended {field : γ → Option α} {assign : Option α → γ → γ} {a : α}
    {x : CRoutine (Creation α) Unit} (hx : Creates m a x) (hfield : field self = none)
    (hreader : ∀ object, reader (assign object self) = none)
    (h : Granted world.heap.allocations k)
    (hn : k + m ≤ n + bufioBlocks config.writerBufferSize) :
    Ended (Stopped n (NoReader reader) Whole config world)
      (fun _ s => Granted world.heap.allocations (k + m) ∧
        s = (some (assign (some a) self), world.drop (k + m)))
      (Routine.within (SelfRun.creating field assign) x (some self, world.drop k)) := by
  apply creating_ended hx hfield h
  intro j object _ hlt hrefused _
  exact early_stopped (hreader object) (not_ready_of_refused hrefused (by omega))

variable {setReader : Option (HufBufioReadWriter ρ) → γ → γ}
  {writer : γ → Option (HufBufioReadWriter ω)}
  {setWriter : Option (HufBufioReadWriter ω) → γ → γ}

/-- The buffered reader, which is created last: without its structure the object has no reader
yet, and without its buffer it has all its pointers. -/
theorem reader_ended (hfields : StreamFields reader setReader writer setWriter)
    (hnone : reader self = none)
    (h : Granted world.heap.allocations (k + bufioBlocks config.writerBufferSize))
    (hwriter : config.writer ≠ none)
    (hwhole : ∀ input bufio j, config.reader = some input →
      Whole (some (setReader (some bufio) self), world.drop j)) :
    Ended (Stopped (k + 1) (NoReader reader) Whole config world)
      (fun _ s => Ready (k + 1) (some config) world ∧ ∃ input j, config.reader = some input ∧
        Granted world.heap.allocations j ∧
        s = (some (setReader (some (newBufio input config.readerBufferSize)) self), world.drop j))
      (Routine.within (SelfRun.creating reader setReader)
        (hufBufioReadWriterInit config.reader config.readerBufferSize)
        (some self, world.drop (k + bufioBlocks config.writerBufferSize))) := by
  have hblocks := one_le_bufioBlocks config.readerBufferSize
  rcases Option.ne_none_iff_exists'.mp hwriter with ⟨output, houtput⟩
  cases hinput : config.reader with
  | none =>
      rw [Routine.within_of_ok rfl (hufBufioReadWriterInit_none _ _)]
      exact .error (early_stopped ((hfields.reader_setReader _ _).trans hnone)
        (not_ready_of_reader hinput))
  | some input =>
      apply (creating_ended (hufBufioReadWriterInit_creates input config.readerBufferSize)
        hnone h fun j object _ hlt hrefused hobject => ?_).mono (fun _ _ h => h)
      · rintro _ _ ⟨hgranted, rfl⟩
        exact ⟨ready_of_granted hinput houtput hgranted (by omega), input, _, rfl, hgranted, rfl⟩
      · cases object with
        | none =>
            have hj := hobject.mp rfl
            exact early_stopped (hfields.reader_setReader _ _)
              (not_ready_of_refused hrefused (by omega))
        | some bufio =>
            have hj : j ≠ k + bufioBlocks config.writerBufferSize :=
              fun hj => Option.some_ne_none bufio (hobject.mpr hj)
            exact .late (ready_of_granted hinput houtput hrefused.1 (by omega)) hrefused rfl
              (hwhole input bufio (j + 1) hinput)

/-- The two buffered streams of the object, behind `k` allocations. The configuration that the
object keeps may have another blocksize. -/
theorem streams_ended (hfields : StreamFields reader setReader writer setWriter) (blocksize : ℕ)
    {stored : Place Fault (SelfRun γ ρ ω) (HufConfig ρ ω)}
    (hstored : stored.load (some self, world.drop k) = .ok { config with blocksize })
    (hstored' : ∀ bufio j, stored.load (some (setWriter (some bufio) self), world.drop j) =
      .ok { config with blocksize })
    (hstore : ∀ c s, stored.load s = .ok c → stored.store c s = s)
    (hwriter : writer self = none) (hnone : reader self = none)
    (h : Granted world.heap.allocations k)
    (hwhole : ∀ input output bufio j, config.reader = some input → config.writer = some output →
      Whole (some (setReader (some bufio)
        (setWriter (some (newBufio output config.writerBufferSize)) self)), world.drop j)) :
    Ended (Stopped (k + 1) (NoReader reader) Whole config world)
      (fun _ s => Ready (k + 1) (some config) world ∧ ∃ input output j,
        config.reader = some input ∧ config.writer = some output ∧
        Granted world.heap.allocations j ∧
        s = (some (setReader (some (newBufio input config.readerBufferSize))
          (setWriter (some (newBufio output config.writerBufferSize)) self)), world.drop j))
      ((do
        let config ← Routine.within stored Routine.get
        Routine.within (SelfRun.creating writer setWriter)
          (hufBufioReadWriterInit config.writer config.writerBufferSize)
        let config ← Routine.within stored Routine.get
        Routine.within (SelfRun.creating reader setReader)
          (hufBufioReadWriterInit config.reader config.readerBufferSize))
        (some self, world.drop k)) := by
  have hget : ∀ s, stored.load s = .ok { config with blocksize } →
      Routine.within stored Routine.get s = (.ok (.ok { config with blocksize }, s) :
        Outcome Fault HufError (SelfRun γ ρ ω) (HufConfig ρ ω)) := by
    intro s hload
    rw [Routine.within_of_ok hload rfl, hstore _ s hload]
  have hnone' : ∀ bufio, reader (setWriter bufio self) = none :=
    fun bufio => (hfields.reader_setWriter bufio self).trans hnone
  rw [Routine.bind_of_ok (hget _ hstored)]
  cases houtput : config.writer with
  | none =>
      rw [Routine.bind_of_error (Routine.within_of_ok rfl (hufBufioReadWriterInit_none _ _))]
      exact .error (early_stopped (hnone' _) (not_ready_of_writer houtput))
  | some output =>
      apply Ended.bind (early_ended
        (hufBufioReadWriterInit_creates output config.writerBufferSize) hwriter hnone' h (by omega))
      rintro _ _ ⟨hgranted, rfl⟩
      rw [Routine.bind_of_ok (hget _ (hstored' _ _))]
      apply (reader_ended hfields (hnone' _) hgranted (by simp [houtput])
        fun input bufio j hinput => hwhole input output bufio j hinput houtput).mono
        (fun _ _ h => h)
      rintro _ _ ⟨hready, input, j, hinput, hgranted, rfl⟩
      exact ⟨hready, input, output, j, hinput, rfl, hgranted, rfl⟩

/-! ## The order of release -/

/-- The release of an object without a reader does not end: behind the tree and the writer it
asks the structure of the reader for its buffer. -/
theorem freeStreams_fault (hfields : StreamFields reader setReader writer setWriter)
    {tree : γ → Option HufTree} {setTree : Option HufTree → γ → γ}
    {rest : Unit → CRoutine (SelfRun γ ρ ω) Unit}
    (htree : ∀ t self, reader (setTree t self) = reader self)
    {s : SelfRun γ ρ ω} (h : NoReader reader s) :
    ∃ fault, (do
      Routine.within (SelfRun.releasingTree tree setTree) hufTreeFree
      Routine.within (SelfRun.releasing writer setWriter) hufBufioReadWriterFree
      Routine.within (SelfRun.releasing reader setReader) hufBufioReadWriterFree >>= rest) s =
        .error fault := by
  rcases s with ⟨_ | self, world⟩
  · exact ⟨_, rfl⟩
  match hfree : hufTreeFree (tree self, world.heap) with
  | .error fault => exact ⟨fault, Routine.bind_of_fault (Routine.within_of_fault rfl hfree)⟩
  | .ok (.error code, s') => exact absurd hfree (hufTreeFree_ne_error _ _ _)
  | .ok (.ok (), s') =>
      have hreader : reader (setWriter none (setTree s'.1 self)) = none := by
        rw [hfields.reader_setWriter, htree]
        exact h self rfl
      rw [Routine.bind_of_ok (Routine.within_of_ok rfl hfree)]
      have hload : (SelfRun.releasing writer setWriter).load (some (setTree s'.1 self),
          { world with heap := s'.2 }) = .ok (writer (setTree s'.1 self)) := rfl
      cases hbufio : writer (setTree s'.1 self) with
      | none => exact ⟨_, Routine.bind_of_fault (Routine.within_of_fault (hload.trans
          (congrArg _ hbufio)) rfl)⟩
      | some bufio =>
          have hload' : (SelfRun.releasing reader setReader).load
              (some (setWriter none (setTree s'.1 self)), { world with heap := s'.2 }) =
                .ok none := congrArg Except.ok hreader
          exact ⟨_, (Routine.bind_of_ok (Routine.within_of_ok (hload.trans (congrArg _ hbufio))
            rfl)).trans (Routine.bind_of_fault (Routine.within_of_fault hload' rfl))⟩

end

end LibHuffman
