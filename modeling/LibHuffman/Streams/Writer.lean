/-
# The buffered writer loses, duplicates and reorders nothing

Over a sink that appends all of a write or nothing, a write that is refused leaves the
invariant unchanged: the content of the sink followed by what the buffer holds are the
bytes that were accepted. Over a sink that refuses nothing every call succeeds.
-/

import LibHuffman.Streams.Partial

namespace LibHuffman

open Foundation

variable {ω : Type}

/-- A buffered writer over `sink` that has accepted the bytes `written`. -/
structure Writing (sink : FallibleSink ω) (b : Buffered ω) (written : List UInt8) : Prop where
  readWriter : b.bufio.readWriter = sink.readWriter
  block : b.bufio.bytes.length = b.bufio.capacity
  length_le : b.bufio.length ≤ b.bufio.capacity
  content : sink.content b.stream ++ b.bufio.bytes.take b.bufio.length = written

/-- Some write was refused with this code. -/
def FallibleSink.Refuses (sink : FallibleSink ω) (code : HufError) : Prop :=
  ∃ data s s', sink.readWriter.write data s = .ok (.error code, s')

theorem Sink.not_refuses (sink : Sink ω) (code : HufError) :
    ¬ sink.toFallibleSink.Refuses code := by
  intro h'
  rcases h' with ⟨data, s, s', h⟩
  exact sink.write_succeeds data s code s' h

/-- The two ways in which a write to a buffered writer ends. -/
def WriteEnds (sink : FallibleSink ω) (capacity : ℕ)
    (outcome : Outcome Fault HufError (Buffered ω) Unit) (accepted before : List UInt8)
    (post : Buffered ω → Prop) : Prop :=
  (∃ b', outcome = .ok (.ok (), b') ∧ Writing sink b' accepted ∧
      b'.bufio.capacity = capacity ∧ post b') ∨
    ∃ code b', outcome = .ok (.error code, b') ∧ Writing sink b' before ∧
      b'.bufio.capacity = capacity ∧ sink.Refuses code

section

variable {sink : FallibleSink ω} {limit : ℕ} {b : Buffered ω} {base written : List UInt8}

/-- Such a sink is a partial one for writes of any length. -/
theorem Writing.appending (h : Writing sink b written) (hlimit : b.bufio.capacity ≤ limit) :
    Appending (sink.toPartialSink limit) [] b written :=
  ⟨h.readWriter, trivial, h.block, h.length_le, hlimit, List.nil_prefix, h.content⟩

theorem Appending.writing (h : Appending (sink.toPartialSink limit) base b written) :
    Writing sink b written :=
  ⟨h.readWriter, h.block, h.length_le, h.content⟩

/-- A refused write leaves nothing of its data, so that the accepted bytes are as they were. -/
theorem WriteRefused.writing {capacity : ℕ} {total : List UInt8} {code : HufError}
    (h : WriteRefused (sink.toPartialSink limit) base capacity written total code b) :
    Writing sink b written ∧ b.bufio.capacity = capacity ∧ sink.Refuses code := by
  cases h with
  | @behind b data s' h hcapacity hdata hrun htotal =>
      have hwriting := h.writing
      have hrefused : sink.readWriter.write data b.stream = .ok (.error code, s') := hrun
      refine ⟨⟨hwriting.readWriter, hwriting.block, hwriting.length_le, ?_⟩, hcapacity, data,
        b.stream, s', hrefused⟩
      rcases sink.write_all_or_nothing data b.stream with
        ⟨s, hrun', -⟩ | ⟨code', s, hrun', hcontent⟩
      · rw [hrefused] at hrun'
        cases hrun'
      · rw [hrefused] at hrun'
        cases hrun'
        show sink.content s' ++ _ = written
        rw [hcontent]
        exact hwriting.content

theorem WriteEnds.of_ended {capacity : ℕ} {accepted before total : List UInt8}
    {outcome : Outcome Fault HufError (Buffered ω) Unit} {post : Buffered ω → Prop}
    (h : Routine.Ended (WriteRefused (sink.toPartialSink limit) base capacity before total)
      (fun _ b' => Appending (sink.toPartialSink limit) base b' accepted ∧
        b'.bufio.capacity = capacity ∧ post b') outcome) :
    WriteEnds sink capacity outcome accepted before post := by
  cases h with
  | value h' =>
      rcases h' with ⟨happending, hcapacity, hpost⟩
      exact Or.inl ⟨_, rfl, happending.writing, hcapacity, hpost⟩
  | error h' =>
      rcases h'.writing with ⟨hwriting, hcapacity, hrefuses⟩
      exact Or.inr ⟨_, _, rfl, hwriting, hcapacity, hrefuses⟩

theorem hufBufioReadWriterFlush_ends (h : Writing sink b written) :
    WriteEnds sink b.bufio.capacity (hufBufioReadWriterFlush b) written written
      fun b' => b'.bufio.length = 0 :=
  .of_ended (h.appending (Nat.le_refl _)).flush_stops

theorem hufBufioWrite_ends (h : Writing sink b written) (buf : List UInt8) :
    WriteEnds sink b.bufio.capacity (hufBufioWrite buf b) (written ++ buf) written
      fun _ => True := by
  have happending := h.appending (Nat.le_max_left b.bufio.capacity buf.length)
  apply WriteEnds.of_ended
  apply (happending.write_stops (Nat.le_max_right _ _)).mono (fun _ _ h' => h')
  exact fun _ _ h' => ⟨h'.1, h'.2, trivial⟩

end

/-! ## Over a sink that refuses nothing -/

section

variable {sink : Sink ω} {b : Buffered ω} {written : List UInt8}

theorem hufBufioWrite_ok (h : Writing sink.toFallibleSink b written) (buf : List UInt8) :
    ∃ b', hufBufioWrite buf b = .ok (.ok (), b') ∧
      Writing sink.toFallibleSink b' (written ++ buf) := by
  rcases hufBufioWrite_ends h buf with ⟨b', hrun, h', -, -⟩ | ⟨code, -, -, -, -, hrefuses⟩
  · exact ⟨b', hrun, h'⟩
  · exact absurd hrefuses (sink.not_refuses code)

theorem hufBufioWriteUint8_ok (h : Writing sink.toFallibleSink b written) (byte : UInt8) :
    ∃ b', hufBufioWriteUint8 byte b = .ok (.ok (), b') ∧
      Writing sink.toFallibleSink b' (written ++ [byte]) :=
  hufBufioWrite_ok h [byte]

theorem hufBufioReadWriterFlush_ok (h : Writing sink.toFallibleSink b written) :
    ∃ b', hufBufioReadWriterFlush b = .ok (.ok (), b') ∧
      sink.content b'.stream = written := by
  rcases hufBufioReadWriterFlush_ends h with
    ⟨b', hrun, h', -, hempty⟩ | ⟨code, -, -, -, -, hrefuses⟩
  · refine ⟨b', hrun, ?_⟩
    have hcontent := h'.content
    rw [hempty, List.take_zero, List.append_nil] at hcontent
    exact hcontent
  · exact absurd hrefuses (sink.not_refuses code)

end

/-! ## Whole runs -/

/-- A call of the buffered writer. -/
inductive WriterCall
  | write (buf : List UInt8)
  | flush
  deriving DecidableEq

/-- The function a call stands for. -/
def WriterCall.run : WriterCall → CRoutine (Buffered ω) Unit
  | .write buf => hufBufioWrite buf
  | .flush => hufBufioReadWriterFlush

/-- The bytes a call hands over. -/
def WriterCall.argument : WriterCall → List UInt8
  | .write buf => buf
  | .flush => []

/-- Make the calls one after the other, whatever they return, and list which of
them succeeded. -/
def runWriter : List WriterCall → Buffered ω → Except Fault (List Bool × Buffered ω)
  | [], b => .ok ([], b)
  | call :: calls, b =>
    match call.run b with
    | .error fault => .error fault
    | .ok (result, b') =>
      match runWriter calls b' with
      | .error fault => .error fault
      | .ok (results, b'') => .ok (result.isOk :: results, b'')

/-- The arguments of the calls that succeeded. -/
def acceptedBytes (calls : List WriterCall) (results : List Bool) : List UInt8 :=
  ((calls.zip results).filter (·.2)).flatMap (·.1.argument)

section

variable {sink : FallibleSink ω} {b : Buffered ω} {written : List UInt8}

theorem WriterCall.run_ends (h : Writing sink b written) (call : WriterCall) :
    WriteEnds sink b.bufio.capacity (call.run b) (written ++ call.argument) written
      fun b' => call = .flush → b'.bufio.length = 0 := by
  cases call with
  | write buf =>
      rcases hufBufioWrite_ends h buf with ⟨b', hrun, h', hcap, -⟩ | hrefused
      · exact Or.inl ⟨b', hrun, h', hcap, fun hflush => by cases hflush⟩
      · exact Or.inr hrefused
  | flush =>
      rcases hufBufioReadWriterFlush_ends h with ⟨b', hrun, h', hcap, hempty⟩ | hrefused
      · refine Or.inl ⟨b', hrun, ?_, hcap, fun _ => hempty⟩
        rw [WriterCall.argument, List.append_nil]
        exact h'
      · exact Or.inr hrefused

theorem runWriter_writing (calls : List WriterCall) (h : Writing sink b written) :
    ∃ results b', runWriter calls b = .ok (results, b') ∧
      Writing sink b' (written ++ acceptedBytes calls results) ∧
      b'.bufio.capacity = b.bufio.capacity ∧ results.length = calls.length ∧
      (false ∈ results → ∃ code, sink.Refuses code) ∧
      (calls.getLast? = some .flush → results.getLast? = some true → b'.bufio.length = 0) := by
  induction calls generalizing b written with
  | nil =>
      refine ⟨[], b, rfl, ?_, rfl, rfl, nofun, nofun⟩
      rw [acceptedBytes, List.zip_nil_left, List.filter_nil, List.flatMap_nil, List.append_nil]
      exact h
  | cons call calls ih =>
      -- the state after the first call, with the bytes it accepted
      have hstep : ∃ result b₁, call.run b = .ok (result, b₁) ∧
          Writing sink b₁ (written ++ if result.isOk then call.argument else []) ∧
          b₁.bufio.capacity = b.bufio.capacity ∧
          (result.isOk = false → ∃ code, sink.Refuses code) ∧
          (call = .flush → result.isOk = true → b₁.bufio.length = 0) := by
        rcases call.run_ends h with
          ⟨b₁, hrun, h₁, hcap, hflush⟩ | ⟨code, b₁, hrun, h₁, hcap, hrefuses⟩
        · exact ⟨.ok (), b₁, hrun, h₁, hcap, nofun, fun hcall _ => hflush hcall⟩
        · refine ⟨.error code, b₁, hrun, ?_, hcap, fun _ => ⟨code, hrefuses⟩, nofun⟩
          exact (List.append_nil written).symm ▸ h₁
      rcases hstep with ⟨result, b₁, hrun, h₁, hcap₁, hrefuses₁, hflush₁⟩
      obtain ⟨results, b₂, hrest, h₂, hcap₂, hlength, hrefuses₂, hflush₂⟩ := ih h₁
      refine ⟨result.isOk :: results, b₂, ?_, ?_, hcap₂.trans hcap₁, ?_, ?_, ?_⟩
      · simp only [runWriter, hrun, hrest]
      · have haccepted : acceptedBytes (call :: calls) (result.isOk :: results) =
            (if result.isOk then call.argument else []) ++ acceptedBytes calls results := by
          cases result.isOk <;> simp [acceptedBytes]
        rw [haccepted, ← List.append_assoc]
        exact h₂
      · rw [List.length_cons, List.length_cons, hlength]
      · intro hmem
        rcases List.mem_cons.mp hmem with hfirst | hlater
        · exact hrefuses₁ hfirst.symm
        · exact hrefuses₂ hlater
      · intro hlast hres
        cases calls with
        | nil =>
            simp only [runWriter, Except.ok.injEq, Prod.mk.injEq] at hrest
            rcases hrest with ⟨rfl, rfl⟩
            exact hflush₁ (by simpa using hlast) (by simpa using hres)
        | cons next calls =>
            have hne : results ≠ [] := by
              rintro rfl
              simp only [runWriter] at hrest
              split at hrest
              · cases hrest
              · split at hrest <;> simp at hrest
            apply hflush₂ (by simpa using hlast)
            rw [List.getLast?_cons_of_ne_nil hne] at hres
            exact hres

/-- A new buffered writer has accepted what its sink already holds. -/
theorem writing_newBufio (sink : FallibleSink ω) (capacity : ℕ) (stream : ω) :
    Writing sink ⟨newBufio sink.readWriter capacity, stream⟩ (sink.content stream) where
  readWriter := rfl
  block := List.length_replicate
  length_le := Nat.zero_le _
  content := by
    show sink.content stream ++ List.take 0 _ = _
    simp

end

/-- Whatever is written and flushed, and whatever the sink refuses, the sink
followed by the buffer holds exactly the arguments of the calls that succeeded, and a call
fails only where the sink refuses a write; after a successful flush the sink alone holds
them, for every capacity through which the same calls succeed, and for every capacity at
all if the sink refuses nothing. -/
theorem runWriter_exact (sink : FallibleSink ω) (capacity : ℕ) (stream : ω)
    (calls : List WriterCall) :
    ∃ results b, runWriter calls ⟨newBufio sink.readWriter capacity, stream⟩ = .ok (results, b) ∧
      b.bufio.length ≤ capacity ∧
      sink.content b.stream ++ b.bufio.bytes.take b.bufio.length =
        sink.content stream ++ acceptedBytes calls results ∧
      (false ∈ results → ∃ code, sink.Refuses code) ∧
      (calls.getLast? = some .flush → results.getLast? = some true →
        b.bufio.length = 0 ∧
        ∀ capacity' stream' results' b', sink.content stream' = sink.content stream →
          runWriter calls ⟨newBufio sink.readWriter capacity', stream'⟩ = .ok (results', b') →
          (results' = results ∨ ∀ code, ¬ sink.Refuses code) →
          sink.content b'.stream = sink.content b.stream) := by
  obtain ⟨results, b, hrun, h, hcap, hlength, hrefuses, hflush⟩ :=
    runWriter_writing calls (writing_newBufio sink capacity stream)
  have hle : b.bufio.length ≤ capacity := by
    have := h.length_le
    rw [hcap] at this
    exact this
  refine ⟨results, b, hrun, hle, h.content, hrefuses, fun hlast hres => ⟨hflush hlast hres, ?_⟩⟩
  intro capacity' stream' results' b' hstream hrun' hsame
  obtain ⟨_, _, hrun₂, h₂, -, hlength₂, hrefuses₂, hflush₂⟩ :=
    runWriter_writing calls (writing_newBufio sink capacity' stream')
  rw [hrun'] at hrun₂
  cases hrun₂
  -- a sink that refuses nothing lets all calls succeed, through either buffer
  have hresults : results' = results := by
    rcases hsame with rfl | hnever
    · rfl
    · have hall {rs : List Bool} (hrs : false ∈ rs → ∃ code, sink.Refuses code) :
          rs = List.replicate rs.length true := by
        rw [List.eq_replicate_iff]
        refine ⟨rfl, fun r hr => ?_⟩
        cases r with
        | true => rfl
        | false => exact absurd (hrs hr).choose_spec (hnever _)
      rw [hall hrefuses, hall hrefuses₂, hlength, hlength₂]
  rw [hresults] at h₂ hflush₂
  have hcontent := h.content
  have hcontent₂ := h₂.content
  rw [hflush hlast hres, List.take_zero, List.append_nil] at hcontent
  rw [hflush₂ hlast hres, List.take_zero, List.append_nil] at hcontent₂
  rw [hcontent, hcontent₂, hstream]

end LibHuffman
