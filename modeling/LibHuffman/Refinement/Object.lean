/-
# Two runs on one kind of object

An encoder or a decoder runs on real streams, and a second one at the same place on ideal
streams. Whatever else the two have, the stream of the first one holds the beginning of
what the second one has accepted, and only the first one runs out of memory.
-/

import LibHuffman.Refinement.Ideal

namespace LibHuffman

open Foundation Allocating

/-- The states of an object that has all its pointers, and where a run on it finds the tree
and the buffered writer. -/
structure ObjectStates (S γ ρ ω : Type) where
  run : S → SelfRun γ ρ ω
  tree : S → TreeStore
  setTree : TreeStore → S → S
  treePlace : Place Fault (SelfRun γ ρ ω) TreeStore
  writer : S → Buffered ω
  setWriter : Buffered ω → S → S
  writerPlace : Place Fault (SelfRun γ ρ ω) (Buffered ω)

namespace ObjectStates

variable {S γ ρ ω S' γ' α β : Type}

/-- The outcomes of the allocations to come, as a part of the object. -/
def setAllocations (o : ObjectStates S γ ρ ω) (outcomes : List Bool) (d : S) : S :=
  o.setTree { o.tree d with heap := { (o.tree d).heap with allocations := outcomes } } d

/-- The places are those of the tree, the allocator and the writer. -/
structure Lawful (o : ObjectStates S γ ρ ω) : Prop where
  load_tree : ∀ d, o.treePlace.load (o.run d) = .ok (o.tree d)
  store_tree : ∀ t d, o.treePlace.store t (o.run d) = o.run (o.setTree t d)
  writer_setTree : ∀ t d, o.writer (o.setTree t d) = o.writer d
  load_allocator : ∀ d, SelfRun.allocator.load (o.run d) = .ok (o.tree d).heap.allocations
  store_allocator : ∀ outcomes d,
    SelfRun.allocator.store outcomes (o.run d) = o.run (o.setAllocations outcomes d)
  load_writer : ∀ d, o.writerPlace.load (o.run d) = .ok (o.writer d)
  store_writer : ∀ b d, o.writerPlace.store b (o.run d) = o.run (o.setWriter b d)
  writer_setWriter : ∀ b d, o.writer (o.setWriter b d) = b
  output_run : ∀ d, (o.run d).2.output = (o.writer d).stream

theorem Lawful.within_writer {o : ObjectStates S γ ρ ω} (ho : o.Lawful) {d : S}
    {x : CRoutine (Buffered ω) α} {r : Except HufError α} {b : Buffered ω}
    (h : x (o.writer d) = .ok (r, b)) :
    Routine.within o.writerPlace x (o.run d) = .ok (r, o.run (o.setWriter b d)) := by
  rw [Routine.within_of_ok (ho.load_writer d) h, ho.store_writer]

/-- What the writers of two states have accepted. -/
def Writings (o : ObjectStates S γ ρ ω) (o' : ObjectStates S' γ' Fifo Fifo)
    (sink : PartialSink ω) (base : List UInt8) (d : S) (d' : S') : Prop :=
  ∃ written, Appending sink base (o.writer d) written ∧ Unbuffered (o'.writer d') written

/-- The tie of two runs from states that are twins. -/
def tie (o : ObjectStates S γ ρ ω) (o' : ObjectStates S' γ' Fifo Fifo) (sink : PartialSink ω)
    (base : List UInt8) (first : List Bool) (Twins : S → S' → Prop) :
    Tie HufError (SelfRun γ ρ ω) (SelfRun γ' Fifo Fifo) where
  both s t := ∃ d d', s = o.run d ∧ t = o'.run d' ∧ Twins d d'
  failed _ s t := ∃ d d', s = o.run d ∧ t = o'.run d' ∧ Writings o o' sink base d d'
  stopped code s := Interrupted sink first code ∧ base <+: sink.content s.2.output
  alone _ s t := ∃ d', t = o'.run d' ∧
    ∃ written, Unbuffered (o'.writer d') written ∧ sink.content s.2.output <+: written

/-- The second one of two twins has the tree of the first one without failures, and the first
one may go on with its tree or its writer. -/
structure Twinned (o : ObjectStates S γ ρ ω) (o' : ObjectStates S' γ' Fifo Fifo)
    (sink : PartialSink ω) (base : List UInt8) (first : List Bool) (Twins : S → S' → Prop) :
    Prop where
  tree : ∀ {d d'}, Twins d d' → o'.tree d' = schedule [] (o.tree d)
  spared : ∀ {d d'}, Twins d d' → Spared first (allocations (o.tree d))
  writing : ∀ {d d'}, Twins d d' → Writings o o' sink base d d'
  setTree : ∀ {d d'} t, Twins d d' → Spared first (allocations t) →
    Twins (o.setTree t d) (o'.setTree (schedule [] t) d')
  setWriter : ∀ {d d' b b' written}, Twins d d' → Appending sink base b written →
    Unbuffered b' written → Twins (o.setWriter b d) (o'.setWriter b' d')

section

variable {o : ObjectStates S γ ρ ω} {o' : ObjectStates S' γ' Fifo Fifo} {sink : PartialSink ω}
  {base : List UInt8} {first : List Bool} {Twins : S → S' → Prop} {V : α → Prop}

theorem tie_failed (h : Twinned o o' sink base first Twins) {s : SelfRun γ ρ ω}
    {t : SelfRun γ' Fifo Fifo} (code : HufError)
    (hboth : (tie o o' sink base first Twins).both s t) :
    (tie o o' sink base first Twins).failed code s t := by
  rcases hboth with ⟨d, d', hs, ht, htwins⟩
  exact ⟨d, d', hs, ht, h.writing htwins⟩

/-- The second run goes on with something other than its writer. -/
theorem tie_onward {place : Place Fault (SelfRun γ' Fifo Fifo) β} {x : CRoutine β α}
    (hstore : ∀ d' b r b', place.load (o'.run d') = .ok b → x b = .ok (r, b') →
      ∃ d'', place.store b' (o'.run d') = o'.run d'' ∧ o'.writer d'' = o'.writer d')
    (hx : ∀ b a b', x b = .ok (.ok a, b') → V a) (code : HufError) (s : SelfRun γ ρ ω) :
    Triple ((tie o o' sink base first Twins).alone code s) (Routine.within place x)
      (fun a t => V a ∧ (tie o o' sink base first Twins).alone code s t)
      fun _ => (tie o o' sink base first Twins).alone code s := by
  have hkeeps : ∀ t b r b', place.load t = .ok b → x b = .ok (r, b') →
      (tie o o' sink base first Twins).alone code s t →
      (tie o o' sink base first Twins).alone code s (place.store b' t) := by
    rintro _ b r b' hload hrun ⟨d', rfl, hwriting⟩
    rcases hstore d' b r b' hload hrun with ⟨d'', hrun, hwriter⟩
    exact ⟨d'', hrun, hwriter ▸ hwriting⟩
  intro t ht
  apply And.intro
  · intro a t' hrun
    rcases Routine.within_eq_ok hrun with ⟨b, b', hload, hvalue, rfl⟩
    exact ⟨hx b a b' hvalue, hkeeps t b _ b' hload hvalue ht⟩
  · intro code' t' hrun
    rcases Routine.within_eq_ok hrun with ⟨b, b', hload, herror, rfl⟩
    exact hkeeps t b _ b' hload herror ht

/-! ## The allocator -/

/-- A routine on something with the allocator in it, which follows itself without failures. -/
theorem tie_carried [Allocating β] (ho : o.Lawful) (h : Twinned o o' sink base first Twins)
    {place : Place Fault (SelfRun γ ρ ω) β} {place' : Place Fault (SelfRun γ' Fifo Fifo) β}
    (hload : ∀ d d', Twins d d' → ∃ b, place.load (o.run d) = .ok b ∧
      place'.load (o'.run d') = .ok (schedule [] b) ∧ Spared first (allocations b) ∧
      ∀ b', ∃ d₁, place.store b' (o.run d) = o.run d₁ ∧
        (o.writer d₁).stream = (o.writer d).stream ∧
        (Spared first (allocations b') → ∃ d₁',
          place'.store (schedule [] b') (o'.run d') = o'.run d₁' ∧ Twins d₁ d₁'))
    (hstore : ∀ d' b, ∃ d'', place'.store b (o'.run d') = o'.run d'' ∧
      o'.writer d'' = o'.writer d')
    (x : CRoutine β α)
    (hx : ∀ b, Endures (fun _ => True) (fun b' => b' = b) x fun _ _ => True) :
    (tie o o' sink base first Twins).Joins (Routine.within place x) (Routine.within place' x)
      fun _ => True where
  onward := tie_onward (fun d' _ _ b' _ _ => hstore d' b') fun _ _ _ _ => trivial
  together := by
    rintro _ _ ⟨d, d', rfl, rfl, htwins⟩
    rcases hload d d' htwins with ⟨b, hb, hb', hspared, hstores⟩
    have hboth : ∀ b₁ b₁', Parallel first (fun _ => True) b₁ b₁' →
        (tie o o' sink base first Twins).both (place.store b₁ (o.run d))
          (place'.store b₁' (o'.run d')) := by
      rintro b₁ _ ⟨hspared', rfl, -⟩
      rcases hstores b₁ with ⟨d₁, hrun, -, htied⟩
      rcases htied hspared' with ⟨d₁', hrun', htwins'⟩
      exact ⟨d₁, d₁', hrun, hrun', htwins'⟩
    apply Tie.Ends.within hb hb'
    apply Tie.Ends.of_follows (hx b first b hspared rfl)
    · -- the allocation that failed is one of the first run only
      rintro code b₁ ⟨rfl, hexhausted, -⟩
      rcases hstores b₁ with ⟨d₁, hrun, hstream, -⟩
      rcases h.writing htwins with ⟨written, happending, hwriting⟩
      have houtput : (place.store b₁ (o.run d)).2.output = (o.writer d).stream := by
        rw [hrun, ho.output_run]
        exact hstream
      have halone : ∀ b', (tie o o' sink base first Twins).alone .memoryAllocation
          (place.store b₁ (o.run d)) (place'.store b' (o'.run d')) := by
        intro b'
        rcases hstore d' b' with ⟨d₁', hrun', hwriter⟩
        refine ⟨d₁', hrun', written, hwriter ▸ hwriting, ?_⟩
        rw [houtput]
        exact happending.begins
      refine ⟨⟨.inl ⟨rfl, hexhausted.mem⟩, ?_⟩, fun _ b' _ => ⟨trivial, halone b'⟩,
        fun _ b' _ => halone b'⟩
      rw [houtput]
      exact happending.begun
    · exact fun code b₁ b₁' hp => tie_failed h code (hboth b₁ b₁' hp)
    · exact fun _ b₁ b₁' hp => ⟨trivial, hboth b₁ b₁' hp⟩

theorem tie_tree (ho : o.Lawful) (ho' : o'.Lawful) (h : Twinned o o' sink base first Twins)
    (x : CRoutine TreeStore α)
    (hx : ∀ t, Endures (fun _ => True) (fun t' => t' = t) x fun _ _ => True) :
    (tie o o' sink base first Twins).Joins (Routine.within o.treePlace x)
      (Routine.within o'.treePlace x) fun _ => True := by
  apply tie_carried ho h _ _ x hx
  · intro d d' htwins
    refine ⟨o.tree d, ho.load_tree d, ?_, h.spared htwins, fun t => ?_⟩
    · rw [ho'.load_tree, h.tree htwins]
    · exact ⟨o.setTree t d, ho.store_tree t d, congrArg Buffered.stream (ho.writer_setTree t d),
        fun hspared => ⟨_, ho'.store_tree _ d', h.setTree t htwins hspared⟩⟩
  · exact fun d' t => ⟨o'.setTree t d', ho'.store_tree t d', ho'.writer_setTree t d'⟩

/-- A routine that only allocates. -/
theorem tie_allocator (ho : o.Lawful) (ho' : o'.Lawful) (h : Twinned o o' sink base first Twins)
    (x : CRoutine (List Bool) α)
    (hx : Endures (fun _ => True) (fun _ => True) x fun _ _ => True) :
    (tie o o' sink base first Twins).Joins (Routine.within SelfRun.allocator x)
      (Routine.within SelfRun.allocator x) fun _ => True := by
  apply tie_carried ho h _ _ x fun _ => hx.strengthen fun _ _ => trivial
  · intro d d' htwins
    refine ⟨(o.tree d).heap.allocations, ho.load_allocator d, ?_, h.spared htwins,
      fun outcomes => ?_⟩
    · rw [ho'.load_allocator, h.tree htwins]
      rfl
    · let t : TreeStore :=
        { o.tree d with heap := { (o.tree d).heap with allocations := outcomes } }
      have hempty : o'.setAllocations [] d' = o'.setTree (schedule [] t) d' := by
        rw [setAllocations, h.tree htwins]
        rfl
      refine ⟨o.setTree t d, ho.store_allocator outcomes d,
        congrArg Buffered.stream (ho.writer_setTree t d), fun hspared => ?_⟩
      exact ⟨_, ho'.store_allocator [] d', hempty ▸ h.setTree t htwins hspared⟩
  · exact fun d' outcomes => ⟨o'.setAllocations outcomes d', ho'.store_allocator outcomes d',
      ho'.writer_setTree _ d'⟩

/-! ## The writer -/

/-- A routine of the writer that adds `data` to what both have accepted, or is refused in the
first one. -/
theorem tie_writer (ho : o.Lawful) (ho' : o'.Lawful) (h : Twinned o o' sink base first Twins)
    {x : CRoutine (Buffered ω) Unit} {x' : CRoutine (Buffered Fifo) Unit} (data : List UInt8)
    (hx : ∀ b written, Appending sink base b written →
      Routine.Ended (CutShort sink base (written ++ data))
        (fun _ b' => Appending sink base b' (written ++ data)) (x b))
    (hx' : ∀ b' written, Unbuffered b' written →
      ∃ b'', x' b' = .ok (.ok (), b'') ∧ Unbuffered b'' (written ++ data)) :
    (tie o o' sink base first Twins).Joins (Routine.within o.writerPlace x)
      (Routine.within o'.writerPlace x') fun _ => True where
  onward := by
    rintro code s _ ⟨d', rfl, written, hwriting, hpart⟩
    rcases hx' (o'.writer d') written hwriting with ⟨b, hrun', hwriting'⟩
    rw [ho'.within_writer hrun']
    refine ⟨fun _ _ hrun => ?_, fun _ _ hrun => by cases hrun⟩
    cases hrun
    exact ⟨trivial, o'.setWriter b d', rfl, _, (ho'.writer_setWriter b d').symm ▸ hwriting',
      hpart.trans (List.prefix_append _ _)⟩
  together := by
    rintro _ _ ⟨d, d', rfl, rfl, htwins⟩
    rcases h.writing htwins with ⟨written, happending, hwriting⟩
    have hended := hx (o.writer d) written happending
    rcases hx' (o'.writer d') written hwriting with ⟨b', hrun', hwriting'⟩
    rw [ho'.within_writer hrun']
    generalize hrun : x (o.writer d) = outcome at hended
    cases hended with
    | @value u b hb =>
        cases u
        rw [ho.within_writer hrun]
        exact .value trivial ⟨o.setWriter b d, o'.setWriter b' d', rfl, rfl,
          h.setWriter htwins hb hwriting'⟩
    | @error code b hb =>
        have houtput : (o.run (o.setWriter b d)).2.output = b.stream := by
          rw [ho.output_run, ho.writer_setWriter]
        rw [ho.within_writer hrun]
        refine Tie.Ends.stop ⟨.inr hb.refuses, houtput.symm ▸ hb.begun⟩ ?_ ?_
        · intro _ _ hother
          cases hother
          exact ⟨trivial, o'.setWriter b' d', rfl, _, (ho'.writer_setWriter b' d').symm ▸ hwriting',
            houtput.symm ▸ hb.content⟩
        · intro _ _ hother
          cases hother

theorem tie_write (ho : o.Lawful) (ho' : o'.Lawful) (h : Twinned o o' sink base first Twins)
    {buf : List UInt8} (hbuf : buf.length ≤ sink.limit) :
    (tie o o' sink base first Twins).Joins (Routine.within o.writerPlace (hufBufioWrite buf))
      (Routine.within o'.writerPlace (hufBufioWrite buf)) fun _ => True := by
  apply tie_writer ho ho' h buf
  · exact fun _ _ h => h.write_ended hbuf
  · exact fun _ _ h => h.write_ok buf

theorem tie_flush (ho : o.Lawful) (ho' : o'.Lawful) (h : Twinned o o' sink base first Twins) :
    (tie o o' sink base first Twins).Joins (Routine.within o.writerPlace hufBufioReadWriterFlush)
      (Routine.within o'.writerPlace hufBufioReadWriterFlush) fun _ => True := by
  apply tie_writer ho ho' h []
  · intro b written hb
    rw [List.append_nil]
    exact hb.flush_ended
  · intro b written hb
    rw [List.append_nil]
    exact hb.flush_ok

/-! ## A whole call -/

/-- A run in front of the release that is tied to one that ends in `other`, unless it has
stopped at an allocation before. -/
def BodyTied (o : ObjectStates S γ ρ ω) (o' : ObjectStates S' γ' Fifo Fifo)
    (sink : PartialSink ω) (world : World ρ ω) (Twins : S → S' → Prop)
    (body : CRoutine (SelfRun γ ρ ω) Unit)
    (other : Outcome Fault HufError (SelfRun γ' Fifo Fifo) Unit) : Prop :=
  (∃ s, body (none, world) = .ok (.error .memoryAllocation, s) ∧
      s.2.output = world.output ∧ false ∈ world.heap.allocations) ∨
    (tie o o' sink (sink.content world.output) world.heap.allocations Twins).Ends
      (fun _ => True) (body (none, world)) other

/-- An object that was created is a twin of the one that the ideal call creates, and the
blocks are tied. -/
theorem bodyTied_of_init {n : ℕ} {Early Whole New : SelfRun γ ρ ω → Prop} {config : HufConfig ρ ω}
    {world : World ρ ω} {init blocks : CRoutine (SelfRun γ ρ ω) Unit}
    {blocks' : CRoutine (SelfRun γ' Fifo Fifo) Unit} {t : SelfRun γ' Fifo Fifo}
    {other : Outcome Fault HufError (SelfRun γ ρ ω) Unit} (hready : Ready n (some config) world)
    (hended : Routine.Ended (Stopped n Early Whole config world)
      (fun _ => Started n New config world other) (init (none, world)))
    (hkeeps : KeepsOutput init)
    (hnew : ∀ s, Spared world.heap.allocations (allocations s) → New s →
      other = .ok (.ok (), schedule [] s) →
      (tie o o' sink (sink.content world.output) world.heap.allocations Twins).both s t)
    (hblocks : (tie o o' sink (sink.content world.output) world.heap.allocations Twins).Joins
      blocks blocks' fun _ => True) :
    BodyTied o o' sink world Twins (do init
                                       blocks) (blocks' t) := by
  have hsame : ∀ r s, init (none, world) = .ok (r, s) → s.2.output = world.output :=
    fun _ _ => hkeeps.of_ok
  rw [BodyTied]
  generalize hrun : init (none, world) = outcome at hended hsame
  cases hended with
  | error hstop =>
      rw [Routine.bind_of_error hrun]
      cases hstop with
      | early _ hnot => exact absurd hready hnot
      | late _ hrefused _ _ => exact .inl ⟨_, rfl, hsame _ _ rfl, hrefused.exhausted.mem⟩
  | value hstarted =>
      rw [Routine.bind_of_ok hrun]
      rcases hstarted.granted with ⟨k, hgranted, hallocations⟩
      apply Or.inr
      apply hblocks.together
      exact hnew _ (hallocations ▸ hgranted.spared) hstarted.new hstarted.same

variable {config : Option (HufConfig ρ ω)} {world : World ρ ω}
  {body cleanup : CRoutine (SelfRun γ ρ ω) Unit}

/-- Where the ideal run succeeds, the call has written the beginning of what that has
written, all of it if it succeeds as well. -/
theorem BodyTied.complete (ho : o.Lawful) (ho' : o'.Lawful)
    (h : Twinned o o' sink (sink.content world.output) world.heap.allocations Twins)
    (hsafe : FailsSafely body cleanup config world) (hkeeps : KeepsOutput cleanup)
    (hempties : ∀ d, body (none, world) = .ok (.ok (), o.run d) → (o.writer d).bufio.length = 0)
    {t : SelfRun γ' Fifo Fifo} (hbody : BodyTied o o' sink world Twins body (.ok (.ok (), t)))
    {symbols : List UInt8} (hstored : t.2.output.stored = sink.content world.output ++ symbols) :
    ∃ r world' written,
      Routine.withLocal none (Routine.ensuring body cleanup) world = .ok (r, world') ∧
      sink.content world'.output = sink.content world.output ++ written ∧ written <+: symbols ∧
      (r = .ok () → written = symbols ∧ sink.valid world'.output) ∧
      ∀ code, r = .error code → Interrupted sink world.heap.allocations code := by
  rcases hbody with ⟨s, hbody, hsame, hfailed⟩ | hends
  · rcases hsafe.call_of_body hkeeps hbody with ⟨world', hrun, hout⟩
    refine ⟨_, world', [], hrun, ?_, List.nil_prefix, fun h => (by cases h), ?_⟩
    · rw [hout, hsame, List.append_nil]
    · rintro code ⟨⟩
      exact .inl ⟨rfl, hfailed⟩
  rcases hends.value_left with ⟨s, hbody, d, d', rfl, rfl, htwins⟩ |
    ⟨code, s, hbody, ⟨hcause, written, hbegun⟩, d', rfl, accepted, hwriting, hpart⟩
  · rcases hsafe.call_of_body hkeeps hbody with ⟨world', hrun, hout⟩
    rcases h.writing htwins with ⟨written, happending, hwriting⟩
    rw [ho.output_run] at hout
    rw [ho'.output_run, hwriting.stored] at hstored
    refine ⟨_, world', symbols, hrun, ?_, List.prefix_refl _, fun _ => ⟨rfl, ?_⟩,
      fun _ h => by cases h⟩
    · rw [hout, ← hstored]
      exact happending.of_empty (hempties d hbody)
    · rw [hout]
      exact happending.valid
  · rcases hsafe.call_of_body hkeeps hbody with ⟨world', hrun, hout⟩
    rw [ho'.output_run, hwriting.stored] at hstored
    rw [hstored, ← hbegun, List.prefix_append_right_inj] at hpart
    refine ⟨_, world', written, hrun, ?_, hpart, fun h => (by cases h), ?_⟩
    · rw [hout, hbegun]
    · rintro code' ⟨⟩
      exact hcause

end

end ObjectStates

end LibHuffman
