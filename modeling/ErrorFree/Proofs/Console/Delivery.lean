import ErrorFree.Proofs.Console.Requests

/-!
# What becomes of the requests

**Bytes and flushes.**  `bytesOf` are the bytes of a list of requests, `flushesOf` the numbers of
bytes written when its flushes come.

**Devices without a line buffer.**
* A device that takes everything gets all bytes and notes all flushes (`serveAll_plain`).
* A device with limited room fails exactly when there are more bytes than that, and has then got the
  first of them, as many as there was room for (`serveAll_room`).
* A device on which one flush fails has then got the bytes before that flush
  (`serveAll_failingFlush`).

**With or without a line buffer.**  `handed`: the bytes that were accepted or are held.  A request
that is served adds its bytes to them (`adds_serve`), and after a flush all of them are accepted
(`written_flush`).  A flush that fails loses none of them (`handed_flush`).

**Notes.**  `unwritten`: writes touch neither the notes about flushes nor how the output is made.
-/

namespace ErrorFree

namespace Output

section Lists

/-- The bytes of a request. -/
def Request.bytes : Request → List UInt8
  | .write bytes => bytes
  | .flush => []

/-- The bytes of requests, in order. -/
def bytesOf (requests : List Request) : List UInt8 := requests.flatMap Request.bytes

/-- The bytes written when each flush comes, if `n` were written before. -/
def flushesOf : Nat → List Request → List Nat
  | _, [] => []
  | n, .write bytes :: requests => flushesOf (n + bytes.length) requests
  | n, .flush :: requests => n :: flushesOf n requests

@[simp] theorem bytesOf_write (bytes : List UInt8) (requests : List Request) :
    bytesOf (.write bytes :: requests) = bytes ++ bytesOf requests := rfl

@[simp] theorem bytesOf_flush (requests : List Request) :
    bytesOf (.flush :: requests) = bytesOf requests := rfl

theorem flushesOf_bounds {n f : Nat} {requests : List Request} (h : f ∈ flushesOf n requests) :
    n ≤ f ∧ f ≤ n + (bytesOf requests).length := by
  induction requests generalizing n with
  | nil => cases h
  | cons request requests ih =>
      cases request with
      | write bytes =>
          have hbounds := ih h
          simp only [bytesOf_write, List.length_append]
          omega
      | flush =>
          simp only [flushesOf, List.mem_cons] at h
          rcases h with rfl | h
          · simp
          · exact ih h

theorem serveAll_append (first second : List Request) (o : Output) :
    serveAll (first ++ second) o = andThen (serveAll first o) (serveAll second) := by
  induction first generalizing o with
  | nil => rfl
  | cons request first ih =>
      rw [List.cons_append, serveAll, serveAll]
      rcases o.serve request with ⟨_ | _, after⟩
      · rfl
      · exact ih after

end Lists

section Served

variable {o : Output}

@[simp] theorem appendList_appendList (xs : Array UInt8) (l m : List UInt8) :
    xs ++ l ++ m = xs ++ (l ++ m) :=
  Array.ext' (by simp)

@[simp] theorem size_appendList (xs : Array UInt8) (l : List UInt8) :
    (xs ++ l).size = xs.size + l.length := by
  simp [← Array.length_toList]

/-- The output with more bytes accepted. -/
def accept (bytes : List UInt8) (o : Output) : Output := { o with written := o.written ++ bytes }

/-- The output with one more flush noted. -/
def noted (o : Output) : Output := { o with flushes := o.flushes.push o.written.size }

/-- The output after requests that were all served, its room apart. -/
def after (requests : List Request) (o : Output) : Output :=
  { o with
    written := o.written ++ bytesOf requests
    flushes := o.flushes ++ (flushesOf o.written.size requests).toArray }

theorem after_nil (o : Output) : o.after [] = o := by
  simp [after, bytesOf, flushesOf]

theorem after_write (bytes : List UInt8) (requests : List Request) (o : Output) :
    o.after (.write bytes :: requests) = (o.accept bytes).after requests := by
  simp [after, accept, flushesOf]

theorem after_flush (requests : List Request) (o : Output) :
    o.after (.flush :: requests) = o.noted.after requests := by
  simp [after, noted, flushesOf]

theorem serveAll_write (hline : o.lineBuffered = false) (hroom : o.room = none)
    (bytes : List UInt8) (requests : List Request) :
    serveAll (.write bytes :: requests) o = serveAll requests (o.accept bytes) := by
  simp [serveAll, serve, write, send, hline, hroom, andThen, accept]

theorem serveAll_flush (hline : o.lineBuffered = false)
    (hflush : o.failingFlush ≠ some (o.flushes.size + 1)) (requests : List Request) :
    serveAll (.flush :: requests) o = serveAll requests o.noted := by
  simp [serveAll, serve, flush, hline, hflush, andThen, noted]

end Served

section Devices

variable {o : Output}

/-- The device takes everything, at once. -/
def Plain (o : Output) : Prop := o.Unlimited ∧ o.lineBuffered = false

theorem serveAll_plain (h : o.Plain) (requests : List Request) :
    serveAll requests o = (.ok (), o.after requests) := by
  induction requests generalizing o with
  | nil => rw [after_nil, serveAll]
  | cons request requests ih =>
      obtain ⟨⟨hroom, hflush⟩, hline⟩ := h
      cases request with
      | write bytes =>
          rw [after_write, serveAll_write hline hroom]
          exact ih ⟨⟨hroom, hflush⟩, hline⟩
      | flush =>
          rw [after_flush, serveAll_flush hline (by simp [hflush])]
          exact ih ⟨⟨hroom, hflush⟩, hline⟩

/-- The output with so much room. -/
def withRoom (room : Nat) (o : Output) : Output := { o with room := some room }

/-- A device with limited room serves what fits. -/
theorem serveAll_room (hline : o.lineBuffered = false) (hflush : o.failingFlush = none)
    (room : Nat) (requests : List Request) :
    ((bytesOf requests).length ≤ room ∧
      serveAll requests (o.withRoom room) =
        (.ok (), (o.after requests).withRoom (room - (bytesOf requests).length))) ∨
    (room < (bytesOf requests).length ∧ ∃ cut,
      serveAll requests (o.withRoom room) = (.error o.refusal, cut) ∧
        cut.written = o.written ++ (bytesOf requests).take room) := by
  induction requests generalizing o room with
  | nil =>
      left
      exact ⟨Nat.zero_le _, by rw [after_nil]; rfl⟩
  | cons request requests ih =>
      cases request with
      | write bytes =>
          rw [bytesOf_write, List.length_append]
          by_cases hfits : bytes.length ≤ room
          · -- The write fits, and the requests behind it find the room that is left.
            have hserve : serveAll (.write bytes :: requests) (o.withRoom room) =
                serveAll requests ((o.accept bytes).withRoom (room - bytes.length)) := by
              simp [serveAll, serve, write, send, hline, andThen, hfits, withRoom, accept,
                List.take_of_length_le hfits]
            rw [hserve, after_write]
            rcases ih (o := o.accept bytes) hline hflush (room - bytes.length) with
                ⟨hle, heq⟩ | ⟨hlt, cut, heq, hcut⟩
            · left
              exact ⟨by omega, by rw [heq, Nat.sub_sub]⟩
            · right
              refine ⟨by omega, cut, heq, ?_⟩
              rw [hcut, List.take_append, List.take_of_length_le hfits]
              simp [accept]
          · right
            refine ⟨by omega, (o.accept (bytes.take room)).withRoom (room - bytes.length), ?_, ?_⟩
            · simp [serveAll, serve, write, send, hline, andThen, hfits, withRoom, accept]
            · have hzero : room - bytes.length = 0 := by omega
              simp [withRoom, accept, List.take_append, hzero]
      | flush =>
          rw [bytesOf_flush, after_flush,
            serveAll_flush (o := o.withRoom room) hline (by simp [withRoom, hflush])]
          exact ih (o := o.noted) hline hflush room

/-- A device on which a later flush fails serves the requests up to that flush. -/
theorem serveAll_failingFlush {k : Nat} (hroom : o.room = none) (hline : o.lineBuffered = false)
    (hflush : o.failingFlush = some (k + 1)) (hsize : o.flushes.size ≤ k)
    (requests : List Request) :
    (o.flushes.size + (flushesOf o.written.size requests).length ≤ k ∧
      serveAll requests o = (.ok (), o.after requests)) ∨
    (∃ f cut, (flushesOf o.written.size requests)[k - o.flushes.size]? = some f ∧
      serveAll requests o = (.error .stuck, cut) ∧
        cut.written = o.written ++ (bytesOf requests).take (f - o.written.size)) := by
  induction requests generalizing o with
  | nil =>
      left
      exact ⟨by simpa [flushesOf] using hsize, by rw [after_nil, serveAll]⟩
  | cons request requests ih =>
      cases request with
      | write bytes =>
          have hsum : (o.accept bytes).written.size = o.written.size + bytes.length :=
            size_appendList _ _
          rw [serveAll_write hline hroom, after_write, flushesOf, ← hsum]
          rcases ih (o := o.accept bytes) hroom hline hflush hsize with h | ⟨f, cut, hf, heq, hcut⟩
          · left
            exact h
          · right
            have hbounds := flushesOf_bounds (List.mem_of_getElem? hf)
            have htake : bytes.take (f - o.written.size) = bytes :=
              List.take_of_length_le (by omega)
            refine ⟨f, cut, hf, heq, ?_⟩
            rw [hcut, bytesOf_write, List.take_append, htake, Nat.sub_sub, ← hsum]
            simp [accept]
      | flush =>
          rw [flushesOf]
          by_cases hlast : o.flushes.size = k
          · right
            refine ⟨o.written.size, o.noted, ?_, ?_, ?_⟩
            · simp [hlast]
            · simp [serveAll, serve, flush, hflush, hlast, andThen, noted]
            · simp [noted]
          · have hsum : o.noted.flushes.size = o.flushes.size + 1 := Array.size_push _
            rw [serveAll_flush hline (by simp [hflush, Ne.symm hlast]), after_flush]
            rcases ih (o := o.noted) hroom hline hflush (by omega) with
                ⟨hle, heq⟩ | ⟨f, cut, hf, heq, hcut⟩
            · left
              have hwritten : o.noted.written = o.written := rfl
              rw [hsum, hwritten] at hle
              refine ⟨?_, heq⟩
              rw [List.length_cons]
              omega
            · right
              refine ⟨f, cut, ?_, heq, hcut⟩
              have hindex : k - o.flushes.size = k - o.noted.flushes.size + 1 := by omega
              rw [hindex, List.getElem?_cons_succ]
              exact hf

/-- Requests that such a device has served come before the flush that fails. -/
theorem eq_after_of_failingFlush {k : Nat} {requests : List Request} {p : Output}
    (hroom : o.room = none) (hline : o.lineBuffered = false)
    (hflush : o.failingFlush = some (k + 1)) (hsize : o.flushes.size ≤ k)
    (h : serveAll requests o = (.ok (), p)) : p = o.after requests ∧ p.flushes.size ≤ k := by
  rcases serveAll_failingFlush hroom hline hflush hsize requests with
      ⟨hfew, hserved⟩ | ⟨_, _, _, hfailed, _⟩
  · rw [hserved] at h
    obtain ⟨-, rfl⟩ := Prod.mk.inj h
    refine ⟨rfl, ?_⟩
    simpa [after] using hfew
  · rw [hfailed] at h
    cases h

/-- Requests that such a device refuses flush. -/
theorem flushesOf_ne_nil_of_failingFlush {k : Nat} {requests : List Request} {p : Output}
    {e : IoError} (hroom : o.room = none) (hline : o.lineBuffered = false)
    (hflush : o.failingFlush = some (k + 1)) (hsize : o.flushes.size ≤ k)
    (h : serveAll requests o = (.error e, p)) : flushesOf o.written.size requests ≠ [] := by
  intro hnil
  rcases serveAll_failingFlush hroom hline hflush hsize requests with
      ⟨_, hserved⟩ | ⟨f, _, hf, _, _⟩
  · rw [hserved] at h
    cases h
  · rw [hnil] at hf
    cases hf

end Devices

section Untouched

/-- The part of an output that no write touches. -/
def unwritten (o : Output) : Output := { o with written := #[], held := #[], room := none }

theorem unwritten_andThen {r : Except IoError Unit × Output}
    {next : Output → Except IoError Unit × Output}
    (h : ∀ p, (next p).2.unwritten = p.unwritten) :
    (andThen r next).2.unwritten = r.2.unwritten := by
  obtain ⟨_ | _, p⟩ := r
  · rfl
  · exact h p

theorem unwritten_send (o : Output) (bytes : List UInt8) :
    (o.send bytes).2.unwritten = o.unwritten := by
  rw [send]
  split
  · rfl
  · dsimp only
    split <;> rfl

theorem unwritten_release (o : Output) : o.release.2.unwritten = o.unwritten :=
  unwritten_send o o.held.toList

theorem unwritten_hold (o : Output) (bytes : List UInt8) :
    (o.hold bytes).2.unwritten = o.unwritten := by
  rw [hold, unwritten_andThen]
  · split
    · exact unwritten_release o
    · rfl
  · intro p
    split
    · exact unwritten_send p bytes
    · rfl

theorem unwritten_writeByLine (o : Output) (bytes : List UInt8) :
    (o.writeByLine bytes).2.unwritten = o.unwritten := by
  rw [writeByLine]
  split
  · rw [unwritten_andThen fun p => unwritten_hold p _]
    split
    · exact unwritten_release o
    · rfl
  · rw [unwritten_andThen fun p => unwritten_hold p _]
    split
    · exact unwritten_send o _
    · rw [unwritten_andThen unwritten_release]
      exact unwritten_hold o _

theorem unwritten_write (o : Output) (bytes : List UInt8) :
    (o.write bytes).2.unwritten = o.unwritten := by
  rw [write]
  split
  · exact unwritten_writeByLine o bytes
  · exact unwritten_send o bytes

theorem unwritten_flush (o : Output) : o.flush.2.unwritten = o.noted.unwritten := by
  rw [flush]
  split
  · rfl
  · split
    · exact unwritten_release o.noted
    · rfl

/-- Writes leave the notes about flushes, and how the output is made, as they were. -/
theorem unwritten_serveAll {requests : List Request}
    (h : ∀ request ∈ requests, ∃ bytes, request = .write bytes) (o : Output) :
    (serveAll requests o).2.unwritten = o.unwritten := by
  induction requests generalizing o with
  | nil => rfl
  | cons request requests ih =>
      obtain ⟨bytes, rfl⟩ := h request List.mem_cons_self
      rw [serveAll, unwritten_andThen fun p => ih (fun q hq => h q (List.mem_cons_of_mem _ hq)) p]
      exact unwritten_write o bytes

theorem lineBuffered_serveAll (requests : List Request) (o : Output) :
    (serveAll requests o).2.lineBuffered = o.lineBuffered := by
  induction requests generalizing o with
  | nil => rfl
  | cons request requests ih =>
      have hserve : (o.serve request).2.lineBuffered = o.lineBuffered := by
        cases request with
        | write bytes => exact (congrArg lineBuffered (unwritten_write o bytes) :)
        | flush => exact (congrArg lineBuffered (unwritten_flush o) :)
      rw [serveAll]
      rcases heq : o.serve request with ⟨_ | _, p⟩
      · rw [heq] at hserve
        exact hserve
      · rw [heq] at hserve
        exact (ih p).trans hserve

theorem flushes_flush (o : Output) : o.flush.2.flushes = o.flushes.push o.written.size :=
  (congrArg flushes (unwritten_flush o) :)

end Untouched

section Handed

variable {o : Output}

/-- The bytes that were accepted, and those that are collected to be handed on. -/
def handed (o : Output) : List UInt8 :=
  o.written.toList ++ if o.lineBuffered then o.held.toList else []

/-- A step that, if it goes well, adds the given bytes to those handed over. -/
def Adds (bytes : List UInt8) (o : Output) (r : Except IoError Unit × Output) : Prop :=
  r.1 = .ok () → r.2.lineBuffered = o.lineBuffered ∧ r.2.handed = o.handed ++ bytes

theorem adds_nothing (o : Output) : Adds [] o (.ok (), o) := by
  intro _
  simp

theorem Adds.andThen {b c : List UInt8} {r : Except IoError Unit × Output}
    {next : Output → Except IoError Unit × Output} (h : Adds b o r)
    (hnext : ∀ p, r = (.ok (), p) → p.lineBuffered = o.lineBuffered → Adds c p (next p)) :
    Adds (b ++ c) o (Output.andThen r next) := by
  obtain ⟨_ | _, p⟩ := r
  · intro hok
    cases hok
  · intro hok
    obtain ⟨hline, hhanded⟩ := h rfl
    obtain ⟨hline', hhanded'⟩ := hnext p rfl hline hok
    refine ⟨hline'.trans hline, ?_⟩
    rw [← List.append_assoc, ← hhanded]
    exact hhanded'

theorem send_ok {bytes : List UInt8} (hok : (o.send bytes).1 = .ok ()) :
    (o.send bytes).2 = { o with
      written := o.written ++ bytes, room := o.room.map (· - bytes.length) } := by
  unfold send at hok ⊢
  cases hroom : o.room with
  | none => simp
  | some room =>
      simp only [hroom] at hok ⊢
      by_cases hfits : bytes.length ≤ room
      · simp [hfits, List.take_of_length_le hfits]
      · simp [hfits] at hok

/-- Bytes go to the device only when none are held in front of them. -/
theorem adds_send (h : o.lineBuffered = true → o.held = #[]) (bytes : List UInt8) :
    Adds bytes o (o.send bytes) := by
  intro hok
  rw [send_ok hok]
  refine ⟨rfl, ?_⟩
  by_cases hline : o.lineBuffered = true
  · simp [handed, hline, h hline]
  · simp [handed, hline]

theorem release_ok (hok : o.release.1 = .ok ()) :
    o.release.2 = { o with
      written := o.written ++ o.held.toList, held := #[],
      room := o.room.map (· - o.held.size) } := by
  have hsend : (o.send o.held.toList).1 = .ok () := hok
  unfold release
  simp [send_ok hsend]

theorem adds_release (hline : o.lineBuffered = true) : Adds [] o o.release := by
  intro hok
  rw [release_ok hok]
  exact ⟨rfl, by simp [handed, hline]⟩

theorem adds_hold (hline : o.lineBuffered = true) (bytes : List UInt8) :
    Adds bytes o (o.hold bytes) := by
  unfold hold
  -- Where the bytes go straight to the device, the buffer was emptied first, or was empty.
  refine Adds.andThen (b := []) (c := bytes) ?_ ?_
  · split
    · exact adds_release hline
    · exact adds_nothing o
  · intro p hp hline'
    split
    · rename_i hlarge
      apply adds_send
      intro _
      split at hp
      · have hrelease := release_ok (o := o) (by rw [hp])
        rw [hp] at hrelease
        simp only at hrelease
        rw [hrelease]
      · rename_i hspare
        cases hp
        simp only [bufferCapacity] at hlarge hspare
        apply Array.eq_empty_of_size_eq_zero
        omega
    · intro _
      refine ⟨rfl, ?_⟩
      simp [handed, hline', hline]

theorem splitLastLine_append (bytes : List UInt8) :
    (splitLastLine bytes).1 ++ (splitLastLine bytes).2 = bytes := by
  obtain ⟨front, hfront⟩ : ∃ front, front ++ (splitLastLine bytes).2 = bytes := by
    refine ⟨(bytes.reverse.dropWhile (· != newline)).reverse, ?_⟩
    rw [splitLastLine, ← List.reverse_append, List.takeWhile_append_dropWhile,
      List.reverse_reverse]
  have hlength : front.length + (splitLastLine bytes).2.length = bytes.length := by
    rw [← List.length_append, hfront]
  have htake : (splitLastLine bytes).1 = front :=
    calc (splitLastLine bytes).1
        = bytes.take (bytes.length - (splitLastLine bytes).2.length) := rfl
      _ = bytes.take front.length := by rw [Nat.sub_eq_of_eq_add hlength.symm]
      _ = (front ++ (splitLastLine bytes).2).take front.length := by rw [hfront]
      _ = front := List.take_left
  rw [htake, hfront]

theorem adds_writeByLine (hline : o.lineBuffered = true) (bytes : List UInt8) :
    Adds bytes o (o.writeByLine bytes) := by
  have hsplit := splitLastLine_append bytes
  unfold writeByLine
  split
  · rename_i tail hparts
    rw [hparts] at hsplit
    rw [← hsplit]
    refine Adds.andThen (b := []) (c := tail) ?_ fun p _ hp => adds_hold (hp.trans hline) tail
    split
    · exact adds_release hline
    · exact adds_nothing o
  · rename_i lines tail _ hparts
    rw [hparts] at hsplit
    rw [← hsplit]
    refine Adds.andThen (b := lines) (c := tail) ?_ fun p _ hp => adds_hold (hp.trans hline) tail
    split
    · rename_i hempty
      exact adds_send (fun _ => by simpa using hempty) lines
    · rw [← List.append_nil lines]
      refine Adds.andThen (b := lines) (c := []) ?_ fun p _ hp => adds_release (hp.trans hline)
      rw [List.append_nil]
      exact adds_hold hline lines

theorem flush_ok (hok : o.flush.1 = .ok ()) :
    o.flush = if o.lineBuffered then o.noted.release else (.ok (), o.noted) := by
  unfold flush at hok ⊢
  dsimp only at hok ⊢
  split at hok
  · cases hok
  · rename_i hnot
    rw [if_neg hnot]
    rfl

/-- A request that is served adds its bytes. -/
theorem adds_serve (o : Output) (request : Request) : Adds request.bytes o (o.serve request) := by
  cases request with
  | write bytes =>
      show Adds bytes o (o.write bytes)
      unfold write
      split
      · rename_i hline
        exact adds_writeByLine hline bytes
      · rename_i hline
        exact adds_send (fun h => absurd h hline) bytes
  | flush =>
      intro hok
      have hok' : o.flush.1 = .ok () := hok
      show o.flush.2.lineBuffered = o.noted.lineBuffered ∧ o.flush.2.handed = o.noted.handed ++ []
      have hflush := flush_ok hok'
      rw [hflush] at hok' ⊢
      cases hline : o.lineBuffered with
      | true =>
          rw [hline] at hok'
          exact adds_release (o := o.noted) hline hok'
      | false => exact adds_nothing o.noted rfl

theorem handed_serveAll {requests : List Request} (hok : (serveAll requests o).1 = .ok ()) :
    (serveAll requests o).2.handed = o.handed ++ bytesOf requests := by
  induction requests generalizing o with
  | nil => simp [serveAll, bytesOf]
  | cons request requests ih =>
      have hadds := adds_serve o request
      rcases hserve : o.serve request with ⟨_ | _, p⟩
      · simp [serveAll, hserve, andThen] at hok
      · have hall : serveAll (request :: requests) o = serveAll requests p := by
          simp [serveAll, hserve, andThen]
        rw [hserve] at hadds
        rw [hall] at hok ⊢
        rw [ih hok, (hadds rfl).2, List.append_assoc]
        rfl

/-- After a flush the device has all bytes that were handed over. -/
theorem written_flush (hok : o.flush.1 = .ok ()) : o.flush.2.written.toList = o.handed := by
  have hflush := flush_ok hok
  rw [hflush] at hok ⊢
  by_cases hline : o.lineBuffered = true
  · simp only [hline, if_true] at hok ⊢
    rw [release_ok hok]
    simp [handed, noted, hline]
  · simp [handed, noted, hline]

/-- Bytes that the device refuses stay collected. -/
theorem handed_release (hline : o.lineBuffered = true) : o.release.2.handed = o.handed := by
  cases hroom : o.room with
  | none => simp [release, send, hroom, handed, hline]
  | some room =>
      by_cases hfits : o.held.size ≤ room
      · have hall : o.held.toList.take room = o.held.toList := List.take_of_length_le hfits
        simp [release, send, hroom, handed, hline, hfits, hall]
      · have hsome : min room o.held.size = room := by omega
        have hrest : (o.held.toList.drop room).take (o.held.size - room) =
            o.held.toList.drop room := List.take_of_length_le (by simp)
        simp [release, send, hroom, handed, hline, hfits, hsome, hrest]

/-- A flush adds nothing and loses nothing, even if it fails. -/
theorem handed_flush (o : Output) : o.flush.2.handed = o.handed := by
  rw [flush]
  split
  · rfl
  · split
    · rename_i hline
      exact handed_release (o := o.noted) hline
    · rfl

end Handed

end Output

end ErrorFree
