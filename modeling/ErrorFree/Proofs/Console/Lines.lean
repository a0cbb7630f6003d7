import ErrorFree.Console.Basic
import ErrorFree.Proofs.Console.Delivery
import ErrorFree.Proofs.Text.Utf8

/-!
# Lines that are written and read

A byte below 128 stands for a character of its own (`Utf8.mem_of_mem_encode`), so that the bytes of a
text without line breaks have none.

**Results.**
* `readLine_of_ended`: a line is read up to its end.
* `handed_writeLine`: a line that is written adds the bytes of its text and a newline.
* `readLine_of_line`: where the input begins with such bytes, a read of a line gives the text and
  leaves what follows them.
-/

namespace ErrorFree

namespace Input

variable {line rest : List UInt8}

theorem splitLine_append (h : newline ∉ line) :
    splitLine (line ++ newline :: rest) = (line ++ [newline], rest) := by
  induction line with
  | nil => simp [splitLine]
  | cons byte line ih =>
      have hbyte : byte ≠ newline := fun heq => h (heq ▸ List.mem_cons_self)
      have hline : newline ∉ line := fun hmem => h (List.mem_cons_of_mem byte hmem)
      simp [splitLine, hbyte, ih hline]

theorem splitLine_of_notMem {bytes : List UInt8} (h : newline ∉ bytes) :
    splitLine bytes = (bytes, []) := by
  induction bytes with
  | nil => rfl
  | cons byte rest ih =>
      have hbyte : byte ≠ newline := fun heq => h (heq ▸ List.mem_cons_self)
      have hrest : newline ∉ rest := fun hmem => h (List.mem_cons_of_mem byte hmem)
      simp [splitLine, hbyte, ih hrest]

theorem withoutEnd_append (h : line.getLast? ≠ some carriageReturn) :
    withoutEnd (line ++ [newline]) = line := by
  simp [withoutEnd, h]

/-- A line that ends is read up to its end, whether or not the input fails later. -/
theorem readLine_of_ended {i : Input} (h : newline ∉ line) (hrest : i.rest = line ++ newline :: rest) :
    i.readLine =
      (some (withoutEnd (line ++ [newline])),
        { i.attempt with rest, consumed := i.consumed + (line.length + 1) }) := by
  simp [readLine, attempt, hrest, splitLine_append h]

end Input

namespace Console

variable {c : Console} {text : List Char} {rest : List UInt8}

/-- The bytes of a text as a line. -/
def lineOf (text : List Char) : List UInt8 := Utf8.encode text ++ [Output.newline]

/-- **A line that is written adds its bytes.** -/
theorem handed_writeLine (h : (c.writeLine text).1 = .ok ()) :
    (c.writeLine text).2.output.handed = c.output.handed ++ lineOf text := by
  obtain ⟨input, output⟩ := c
  have hfirst : Output.Adds (Utf8.encode text) output (output.write (Utf8.encode text)) :=
    Output.adds_serve output (.write (Utf8.encode text))
  simp only [writeLine, writeBytes] at h ⊢
  rcases hwrite : output.write (Utf8.encode text) with ⟨_ | _, p⟩
  · rw [hwrite] at h
    cases h
  · rw [hwrite] at h hfirst
    have hsecond : (p.write [Output.newline]).2.handed = p.handed ++ [Output.newline] :=
      (Output.adds_serve p (.write [Output.newline]) h).2
    rw [(hfirst rfl).2, List.append_assoc] at hsecond
    exact hsecond

/-- **A line that was written is read back**, if its text has no line breaks. -/
theorem readLine_of_line (hnewline : '\n' ∉ text) (hreturn : '\r' ∉ text)
    (hflush : c.flush.1 = .ok ()) (hrest : c.input.rest = lineOf text ++ rest) :
    c.readLine.1 = .ok (some text) ∧ c.readLine.2.input.rest = rest := by
  have hline : Input.newline ∉ Utf8.encode text :=
    fun h => hnewline (Utf8.mem_of_mem_encode h (by decide))
  have hend : Input.carriageReturn ∉ Utf8.encode text :=
    fun h => hreturn (Utf8.mem_of_mem_encode h (by decide))
  have hlast : (Utf8.encode text).getLast? ≠ some Input.carriageReturn :=
    fun h => hend (List.mem_of_getLast? h)
  have hended : c.input.rest = Utf8.encode text ++ Input.newline :: rest := by
    rw [hrest, lineOf, List.append_assoc]
    rfl
  rw [readLine_of_flushed (Prod.ext hflush rfl), Input.readLine_of_ended hline hended, Input.withoutEnd_append hlast,
    Option.map_some, Utf8.decodeLossy_encode]
  exact ⟨rfl, rfl⟩

end Console

end ErrorFree
