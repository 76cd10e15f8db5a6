import LispDos.Foundation.Ring
import LispDos.Hal.Keyboard

/-! # The keyboard queue under interrupts

An interrupt may come between any two steps of `keyboard_getchar`. As long as the buffer
does not overflow, characters come out in the order in which they went in. -/

namespace LispDos.Input

open Foundation

variable {s : System} {events : List Event} {k : Keyboard} {queue : List UInt8}

/-- The characters in the buffer from `kbd_tail` up to `kbd_head`. -/
def unread (k : Keyboard) : List UInt8 :=
  ringSlice k.buffer 256 k.tail ((k.head + 256 - k.tail) % 256)

/-- No more than 255 of the stored characters are unread. -/
def NotFull (s : System) : Prop := s.stored.length ≤ s.returned.length + 255

instance (s : System) : Decidable (NotFull s) :=
  inferInstanceAs (Decidable (s.stored.length ≤ s.returned.length + 255))

/-! ## Invariant -/

/-- The buffer holds the characters that are stored and not returned. A call that has passed
its test finds one, and a call that has read it has the oldest. -/
structure Invariant (s : System) (queue : List UInt8) : Prop where
  ring : Ring s.keyboard.buffer 256 s.keyboard.head s.keyboard.tail queue
  stored : s.stored = s.returned ++ queue
  found : s.getchar ≠ .test → queue ≠ []
  oldest : ∀ c, s.getchar = .advance c → queue.head? = some c

@[simp] theorem decode_buffer (k : Keyboard) (scancode : UInt8) :
    (decode k scancode).1.buffer = k.buffer ∧ (decode k scancode).1.head = k.head ∧
      (decode k scancode).1.tail = k.tail := by
  unfold decode
  split_ifs <;> exact ⟨rfl, rfl, rfl⟩

/-- The handler appends what it stores, if there is room. -/
theorem ring_keyboardHandler (h : Ring k.buffer 256 k.head k.tail queue) (input : Option UInt8)
    (hroom : (queue ++ storedChar k input).length < 256) :
    Ring (keyboardHandler k input).buffer 256 (keyboardHandler k input).head
      (keyboardHandler k input).tail (queue ++ storedChar k input) := by
  cases input with
  | none => simpa [keyboardHandler, storedChar] using h
  | some scancode =>
      obtain ⟨hbuffer, hhead, htail⟩ := decode_buffer k scancode
      simp only [keyboardHandler, storedChar, Keyboard.store] at hroom ⊢
      split_ifs at hroom ⊢ with hc
      · simp only [hbuffer, hhead, htail]
        exact h.push (by simpa using hroom) _
      · simpa [hbuffer, hhead, htail] using h

theorem Invariant.interrupt (h : Invariant s queue) (input : Option UInt8)
    (hfull : NotFull (s.step (.interrupt input))) :
    Invariant (s.step (.interrupt input)) (queue ++ storedChar s.keyboard input) := by
  have hstored : (s.step (.interrupt input)).stored =
      s.returned ++ (queue ++ storedChar s.keyboard input) := by
    simp only [System.step, h.stored, List.append_assoc]
  have hroom : (queue ++ storedChar s.keyboard input).length < 256 := by
    rw [NotFull, hstored, List.length_append] at hfull
    have hreturned : (s.step (.interrupt input)).returned = s.returned := rfl
    rw [hreturned] at hfull
    omega
  refine ⟨ring_keyboardHandler h.ring input hroom, hstored, ?_, ?_⟩
  · intro hne
    exact List.append_ne_nil_of_left_ne_nil (h.found hne) _
  · intro c hc
    rw [List.head?_append, h.oldest c hc]
    rfl

theorem Invariant.getchar (h : Invariant s queue) :
    ∃ queue', Invariant (s.step .getchar) queue' := by
  have hstep : s.step .getchar = getcharStep s := rfl
  rw [hstep]
  cases hpc : s.getchar with
  | test =>
      refine ⟨queue, ?_⟩
      simp only [getcharStep, hpc]
      split_ifs with hne
      · have hqueue : queue ≠ [] := fun hnil => hne (h.ring.eq_nil_iff.mpr hnil)
        exact ⟨h.ring, h.stored, fun _ => hqueue, fun c hc => nomatch hc⟩
      · exact h
  | read =>
      have hqueue : queue ≠ [] := h.found (by rw [hpc]; exact nofun)
      refine ⟨queue, ?_⟩
      simp only [getcharStep, hpc]
      refine ⟨h.ring, h.stored, fun _ => hqueue, ?_⟩
      intro c hc
      obtain ⟨x, xs, rfl⟩ := List.exists_cons_of_ne_nil hqueue
      rw [← Getchar.advance.inj hc, h.ring.head_entry]
      rfl
  | advance c =>
      -- the character of the call is the oldest, also if more have come since it was read
      have holdest := h.oldest c hpc
      obtain ⟨xs, rfl⟩ := List.head?_eq_some_iff.mp holdest
      refine ⟨xs, ?_⟩
      simp only [getcharStep, hpc]
      refine ⟨h.ring.pop, ?_, fun hne => (hne rfl).elim, fun c hc => nomatch hc⟩
      simp only [h.stored, List.append_assoc, List.singleton_append]

theorem Invariant.step (h : Invariant s queue) (e : Event) (hfull : NotFull (s.step e)) :
    ∃ queue', Invariant (s.step e) queue' := by
  cases e with
  | interrupt input => exact ⟨_, h.interrupt input hfull⟩
  | getchar => exact h.getchar

/-! ## Runs -/

theorem run_snoc (events : List Event) (e : Event) : run (events ++ [e]) = (run events).step e := by
  rw [run, List.foldl_append]
  rfl

theorem run_invariant (h : ∀ n, NotFull (run (events.take n))) :
    ∃ queue, Invariant (run events) queue := by
  induction events using List.reverseRecOn with
  | nil => exact ⟨[], Ring.nil (by decide), rfl, fun hne => (hne rfl).elim, fun c hc => nomatch hc⟩
  | append_singleton events e ih =>
      have hbefore : ∀ n, NotFull (run (events.take n)) := by
        intro n
        have htake : events.take n = (events ++ [e]).take (min n events.length) := by
          rw [List.take_append_of_le_length (Nat.min_le_right _ _)]
          exact List.take_eq_take_min
        rw [htake]
        exact h _
      obtain ⟨queue, hqueue⟩ := ih hbefore
      have hafter := h (events ++ [e]).length
      rw [List.take_length, run_snoc] at hafter
      rw [run_snoc]
      exact hqueue.step e hafter

theorem unread_eq (h : Ring k.buffer 256 k.head k.tail queue) : unread k = queue := by
  have hroom := h.room
  have htail := h.tail_lt
  have hlength : (k.head + 256 - k.tail) % 256 = queue.length := by
    rw [h.head_eq]
    omega
  rw [unread, hlength]
  exact h.entries.symm

/-- In every interleaving that never leaves more than 255 characters unread, what has been
returned followed by what is unread is what has been stored. -/
theorem keyboard_queue_fifo (events : List Event) (h : ∀ n, NotFull (run (events.take n))) :
    (run events).returned ++ unread (run events).keyboard = (run events).stored := by
  obtain ⟨queue, hqueue⟩ := run_invariant h
  rw [unread_eq hqueue.ring, hqueue.stored]

/-- Two keys, one of them while the first is being taken out. -/
def typedEvents : List Event :=
  [.interrupt (some 0x1E), .getchar, .getchar, .interrupt (some 0x30), .getchar]

theorem keyboard_queue_fifo_typed :
    (∀ n, NotFull (run (typedEvents.take n))) ∧
      (run typedEvents).returned ++ unread (run typedEvents).keyboard = ascii "ab" := by
  have hroom : ∀ n, NotFull (run (typedEvents.take n)) := by
    intro n
    have hshort : ∀ i < 6, NotFull (run (typedEvents.take i)) := by decide
    rw [List.take_eq_take_min]
    exact hshort _ (Nat.lt_succ_of_le (Nat.min_le_right n typedEvents.length))
  refine ⟨hroom, ?_⟩
  rw [keyboard_queue_fifo typedEvents hroom]
  decide

end LispDos.Input
