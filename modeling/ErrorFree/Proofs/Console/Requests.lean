import ErrorFree.Console.Basic

/-!
# Requests to an output

**Requests.**  All that a program can ask of its output is to write bytes and to flush.

**Outputs that never fail.**  `Output.NeverFails`: no list of requests, however long, meets a
failure.  A request keeps this (`NeverFails.write`, `NeverFails.flush`), and an output whose device
takes every byte and every flush has it, with and without a line buffer (`Unlimited.neverFails`).
-/

namespace ErrorFree

namespace Output

/-- What a program can ask of an output. -/
inductive Request where
  | write (bytes : List UInt8)
  | flush

/-- Does what is asked. -/
def serve (o : Output) : Request → Except IoError Unit × Output
  | .write bytes => o.write bytes
  | .flush => o.flush

/-- Does what is asked, one request after the other, up to the first failure. -/
def serveAll : List Request → Output → Except IoError Unit × Output
  | [], o => (.ok (), o)
  | request :: requests, o => andThen (o.serve request) (serveAll requests)

/-- No request fails, now or later. -/
def NeverFails (o : Output) : Prop :=
  ∀ requests : List Request, (serveAll requests o).1 = .ok ()

theorem NeverFails.serve {o : Output} (h : o.NeverFails) (request : Request) :
    (o.serve request).1 = .ok () ∧ (o.serve request).2.NeverFails := by
  rcases heq : o.serve request with ⟨_ | _, after⟩
  · have hfail := h [request]
    simp [serveAll, heq, andThen] at hfail
  · refine ⟨rfl, ?_⟩
    intro requests
    have hrest := h (request :: requests)
    simpa [serveAll, heq, andThen] using hrest

theorem NeverFails.write {o : Output} (h : o.NeverFails) (bytes : List UInt8) :
    (o.write bytes).1 = .ok () ∧ (o.write bytes).2.NeverFails :=
  h.serve (.write bytes)

theorem NeverFails.flush {o : Output} (h : o.NeverFails) :
    o.flush.1 = .ok () ∧ o.flush.2.NeverFails :=
  h.serve .flush

/-- No flush fails, now or later, as long as nothing but flushes is asked. -/
def FlushesNeverFail (o : Output) : Prop :=
  ∀ n, (serveAll (List.replicate n .flush) o).1 = .ok ()

theorem NeverFails.flushesNeverFail {o : Output} (h : o.NeverFails) : o.FlushesNeverFail :=
  fun _ => h _

theorem FlushesNeverFail.flush {o : Output} (h : o.FlushesNeverFail) :
    o.flush.1 = .ok () ∧ o.flush.2.FlushesNeverFail := by
  have hserve : o.serve .flush = o.flush := rfl
  rcases heq : o.flush with ⟨_ | _, after⟩
  · have hfail := h 1
    simp [serveAll, hserve, heq, andThen] at hfail
  · refine ⟨rfl, fun n => ?_⟩
    have hrest := h (n + 1)
    simpa [List.replicate_succ, serveAll, hserve, heq, andThen] using hrest

section Unlimited

/-- The device takes every byte, and every flush. -/
def Unlimited (o : Output) : Prop :=
  o.room = none ∧ o.failingFlush = none

/-- A step that went well and leaves an unlimited output. -/
def Smooth (r : Except IoError Unit × Output) : Prop :=
  r.1 = .ok () ∧ r.2.Unlimited

variable {o : Output}

theorem Smooth.andThen {r : Except IoError Unit × Output}
    {next : Output → Except IoError Unit × Output} (h : Smooth r)
    (hnext : ∀ o : Output, o.Unlimited → Smooth (next o)) : Smooth (Output.andThen r next) := by
  obtain ⟨_ | _, after⟩ := r
  · cases h.1
  · exact hnext after h.2

theorem Unlimited.send (h : o.Unlimited) (bytes : List UInt8) : Smooth (o.send bytes) := by
  simp [Smooth, Output.send, Unlimited, h.1, h.2]

theorem Unlimited.release (h : o.Unlimited) : Smooth o.release := by
  obtain ⟨hok, hroom, hflush⟩ := h.send o.held.toList
  exact ⟨hok, hroom, hflush⟩

theorem Unlimited.hold (h : o.Unlimited) (bytes : List UInt8) : Smooth (o.hold bytes) := by
  unfold Output.hold
  apply Smooth.andThen
  · split
    · exact h.release
    · exact ⟨rfl, h⟩
  · intro o' h'
    split
    · exact h'.send bytes
    · exact ⟨rfl, h'⟩

theorem Unlimited.writeByLine (h : o.Unlimited) (bytes : List UInt8) :
    Smooth (o.writeByLine bytes) := by
  unfold Output.writeByLine
  split
  · apply Smooth.andThen
    · split
      · exact h.release
      · exact ⟨rfl, h⟩
    · intro o' h'
      exact h'.hold _
  · apply Smooth.andThen
    · split
      · exact h.send _
      · exact (h.hold _).andThen fun o' h' => h'.release
    · intro o' h'
      exact h'.hold _

theorem Unlimited.flush (h : o.Unlimited) : Smooth o.flush := by
  have h' : Unlimited { o with flushes := o.flushes.push o.written.size } := h
  unfold Output.flush
  dsimp only
  rw [if_neg (by simp [h.2])]
  split
  · exact h'.release
  · exact ⟨rfl, h'⟩

theorem Unlimited.serve (h : o.Unlimited) (request : Request) : Smooth (o.serve request) := by
  cases request with
  | write bytes =>
      show Smooth (o.write bytes)
      unfold Output.write
      split
      · exact h.writeByLine bytes
      · exact h.send bytes
  | flush => exact h.flush

/-- An output whose device takes everything never fails. -/
theorem Unlimited.neverFails (h : o.Unlimited) : o.NeverFails := by
  intro requests
  suffices hsmooth : Smooth (serveAll requests o) from hsmooth.1
  induction requests generalizing o with
  | nil => exact ⟨rfl, h⟩
  | cons request requests ih => exact (h.serve request).andThen fun _ h' => ih h'

end Unlimited

end Output

namespace Console

variable {c : Console}

section Reads

variable {p : Output} {e : IoError}

theorem readByte_of_flushed (h : c.output.flush = (.ok (), p)) :
    c.readByte = (.ok c.input.readByte.1, ⟨c.input.readByte.2, p⟩) := by
  simp [readByte, flush, h]

theorem readByte_of_unflushed (h : c.output.flush = (.error e, p)) :
    c.readByte = (.error e, ⟨c.input, p⟩) := by
  simp [readByte, flush, h]

theorem readLine_of_flushed (h : c.output.flush = (.ok (), p)) :
    c.readLine = (.ok (c.input.readLine.1.map Utf8.decodeLossy), ⟨c.input.readLine.2, p⟩) := by
  simp [readLine, flush, h]

theorem readLine_of_unflushed (h : c.output.flush = (.error e, p)) :
    c.readLine = (.error e, ⟨c.input, p⟩) := by
  simp [readLine, flush, h]

end Reads

/-- The output of the console never fails. -/
def NeverFails (c : Console) : Prop := c.output.NeverFails

theorem NeverFails.flush (h : c.NeverFails) : c.flush.1 = .ok () ∧ c.flush.2.NeverFails :=
  Output.NeverFails.flush h

theorem NeverFails.writeBytes (h : c.NeverFails) (bytes : List UInt8) :
    (c.writeBytes bytes).1 = .ok () ∧ (c.writeBytes bytes).2.NeverFails :=
  Output.NeverFails.write h bytes

theorem NeverFails.writeLine (h : c.NeverFails) (text : List Char) :
    (c.writeLine text).1 = .ok () ∧ (c.writeLine text).2.NeverFails := by
  have hfirst := h.writeBytes (Utf8.encode text)
  unfold Console.writeLine
  rcases heq : c.writeBytes (Utf8.encode text) with ⟨_ | _, after⟩
  · simp [heq] at hfirst
  · rw [heq] at hfirst
    exact hfirst.2.writeBytes [Output.newline]

theorem NeverFails.readByte (h : c.NeverFails) :
    (∃ byte, c.readByte.1 = .ok byte) ∧ c.readByte.2.NeverFails := by
  have hflush := h.flush
  unfold Console.readByte
  rcases heq : c.flush with ⟨_ | _, after⟩
  · simp [heq] at hflush
  · rw [heq] at hflush
    exact ⟨⟨_, rfl⟩, hflush.2⟩

theorem NeverFails.readLine (h : c.NeverFails) :
    (∃ line, c.readLine.1 = .ok line) ∧ c.readLine.2.NeverFails := by
  have hflush := h.flush
  unfold Console.readLine
  rcases heq : c.flush with ⟨_ | _, after⟩
  · simp [heq] at hflush
  · rw [heq] at hflush
    exact ⟨⟨_, rfl⟩, hflush.2⟩

end Console

end ErrorFree
