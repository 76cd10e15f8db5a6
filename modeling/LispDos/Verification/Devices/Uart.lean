import LispDos.Hal.Serial
import Mathlib.Data.List.Basic
import Mathlib.Tactic.Common

/-! # The serial port and a UART

Any UART that says when it has room for a byte, after any time. The bytes that are printed go out in
their order, and none is lost. -/

namespace LispDos.Serial

open Foundation

/-! ## The registers of a UART -/

/-- What a UART is set to, and what has become of the bytes that it was given. -/
structure Line where
  lcr : UInt8
  divisorLo : UInt8
  divisorHi : UInt8
  sent : List UInt8
  lost : List UInt8

/-- 8 bits, no parity, and the divisor 3. -/
structure Line.Set (l : Line) : Prop where
  lcr : l.lcr = 0x03
  lo : l.divisorLo = 0x03
  hi : l.divisorHi = 0x00

/-- `DLAB`: the first two ports stand for the divisor. -/
def Line.Latch (l : Line) : Prop := l.lcr &&& 0x80 ≠ 0

/-- The device behind the ports is a UART: what the driver relies on. -/
structure Transmitter {σ : Type*} (bus : Bus σ) where
  line : σ → Line
  /-- There is no room for a byte. -/
  Full : σ → Prop
  full_status : ∀ s, Full s → (bus.inb (port + 5) s).1 &&& 0x20 = 0
  room_status : ∀ s, ¬ Full s → (bus.inb (port + 5) s).1 &&& 0x20 ≠ 0
  status_room : ∀ s, ¬ Full s → ¬ Full (bus.inb (port + 5) s).2
  status_line : ∀ s, line (bus.inb (port + 5) s).2 = line s
  /-- There is room some time. -/
  drains : ∀ s, ∃ n, ¬ Full ((fun s => (bus.inb (port + 5) s).2)^[n] s)
  control : ∀ v s, line (bus.outb (port + 3) v s) = { line s with lcr := v }
  divisor_lo : ∀ v s, (line s).Latch → line (bus.outb port v s) = { line s with divisorLo := v }
  divisor_hi : ∀ v s, (line s).Latch → line (bus.outb (port + 1) v s) = { line s with divisorHi := v }
  /-- The other registers do not matter to what goes out. -/
  interrupts : ∀ v s, ¬ (line s).Latch → line (bus.outb (port + 1) v s) = line s
  fifo : ∀ v s, line (bus.outb (port + 2) v s) = line s
  modem : ∀ v s, line (bus.outb (port + 4) v s) = line s
  takes : ∀ a s, ¬ (line s).Latch → ¬ Full s →
    line (bus.outb port a s) = { line s with sent := (line s).sent ++ [a] }

variable {σ : Type*} {bus : Bus σ} {uart : Transmitter bus} {s t t' v : σ} {str : List UInt8}
  {strs : List (List UInt8)}

/-- More bytes on the line. -/
structure Transmitter.Sends (uart : Transmitter bus) (s : σ) (str : List UInt8) (t : σ) : Prop where
  set : (uart.line t).Set
  sent : (uart.line t).sent = (uart.line s).sent ++ str
  lost : (uart.line t).lost = (uart.line s).lost

theorem Transmitter.Sends.trans {str' : List UInt8} (h : uart.Sends s str t)
    (h' : uart.Sends t str' v) : uart.Sends s (str ++ str') v where
  set := h'.set
  sent := by rw [h'.sent, h.sent, List.append_assoc]
  lost := h'.lost.trans h.lost

theorem Line.Set.not_latch {l : Line} (h : l.Set) : ¬ l.Latch := by
  rw [Line.Latch, h.lcr]
  decide

/-! ## The driver -/

/-- The divisor is set while `DLAB` is, whatever was set before. -/
theorem serialInit_sends (uart : Transmitter bus) (s : σ) : uart.Sends s [] (serialInit bus s) := by
  obtain ⟨s₁, hs₁⟩ : ∃ s₁, s₁ = bus.outb (port + 1) 0x00 s := ⟨_, rfl⟩
  have hfirst : (uart.line s₁).sent = (uart.line s).sent ∧ (uart.line s₁).lost = (uart.line s).lost := by
    rw [hs₁]
    by_cases hlatch : (uart.line s).Latch
    · rw [uart.divisor_hi _ _ hlatch]
      exact ⟨rfl, rfl⟩
    · rw [uart.interrupts _ _ hlatch]
      exact ⟨rfl, rfl⟩
  have hinit : serialInit bus s = bus.outb (port + 4) 0x0B (bus.outb (port + 2) 0xC7
      (bus.outb (port + 3) 0x03 (bus.outb (port + 1) 0x00 (bus.outb port 0x03
        (bus.outb (port + 3) 0x80 s₁))))) := by
    rw [hs₁]
    rfl
  have hlatch := uart.control 0x80 s₁
  have hlo := uart.divisor_lo 0x03 (bus.outb (port + 3) 0x80 s₁)
    (by rw [hlatch]; exact show (0x80 : UInt8) &&& 0x80 ≠ 0 by decide)
  rw [hlatch] at hlo
  have hhi := uart.divisor_hi 0x00 (bus.outb port 0x03 (bus.outb (port + 3) 0x80 s₁))
    (by rw [hlo]; exact show (0x80 : UInt8) &&& 0x80 ≠ 0 by decide)
  rw [hlo] at hhi
  have hend : uart.line (serialInit bus s) = { uart.line s₁ with
      lcr := 0x03
      divisorLo := 0x03
      divisorHi := 0x00 } := by
    rw [hinit, uart.modem, uart.fifo, uart.control, hhi]
  constructor
  · rw [hend]
    exact ⟨rfl, rfl, rfl⟩
  · rw [hend, List.append_nil]
    exact hfirst.1
  · rw [hend]
    exact hfirst.2

/-- The wait ends, after any time. -/
theorem emptyRound_returns (uart : Transmitter bus) (s : σ) :
    ∃ t, LoopReturns (emptyRound bus) s t ∧ ¬ uart.Full t ∧ uart.line t = uart.line s := by
  obtain ⟨n, hn⟩ := uart.drains s
  have hfull : ∀ u, uart.Full u → emptyRound bus u = .next (bus.inb (port + 5) u).2 := fun u h =>
    if_pos (uart.full_status u h)
  have hroom : ∀ u, ¬ uart.Full u → emptyRound bus u = .leave (bus.inb (port + 5) u).2 := fun u h =>
    if_neg (uart.room_status u h)
  obtain ⟨u, hline, hfree, hreturns⟩ := loopReturns_of_poll (P := fun u => uart.line u = uart.line s)
    hfull hroom (fun u hu => (uart.status_line u).trans hu) n hn rfl
  exact ⟨_, hreturns, uart.status_room u hfree, (uart.status_line u).trans hline⟩

/-- A byte goes out when the UART has room for it. -/
theorem serialPutchar_sends (h : (uart.line s).Set) (a : UInt8) :
    ∃ t, SerialPutchar bus a s t ∧ uart.Sends s [a] t := by
  obtain ⟨t, hreturns, hroom, hline⟩ := emptyRound_returns uart s
  have hset : (uart.line t).Set := by rwa [hline]
  have htakes := uart.takes a t hset.not_latch hroom
  rw [hline] at htakes
  refine ⟨_, .intro t hreturns, ?_, ?_, ?_⟩
  · rw [htakes]
    exact ⟨h.lcr, h.lo, h.hi⟩
  · rw [htakes]
  · rw [htakes]

theorem serialPrint_sends (h : (uart.line s).Set) (str : List UInt8) :
    ∃ t, SerialPrint bus str s t ∧ uart.Sends s str t := by
  induction str generalizing s with
  | nil => exact ⟨s, .done s, h, (List.append_nil _).symm, rfl⟩
  | cons a str ih =>
      obtain ⟨t, hfirst, hsends⟩ := serialPutchar_sends h a
      obtain ⟨v, hothers, hsends'⟩ := ih hsends.set
      exact ⟨v, .char hfirst hothers, hsends.trans hsends'⟩

theorem serialPrints_sends (h : (uart.line s).Set) (strs : List (List UInt8)) :
    ∃ t, SerialPrints bus strs s t ∧ uart.Sends s strs.flatten t := by
  induction strs generalizing s with
  | nil => exact ⟨s, .done s, h, (List.append_nil _).symm, rfl⟩
  | cons str strs ih =>
      obtain ⟨t, hfirst, hsends⟩ := serialPrint_sends h str
      obtain ⟨v, hothers, hsends'⟩ := ih hsends.set
      exact ⟨v, .print hfirst hothers, hsends.trans hsends'⟩

theorem SerialPrint.unique (h : SerialPrint bus str s t) (h' : SerialPrint bus str s t') : t = t' := by
  induction h with
  | done s =>
      cases h'
      rfl
  | char first others ih =>
      cases h' with
      | char first' others' =>
          obtain ⟨v, empty⟩ := first
          obtain ⟨v', empty'⟩ := first'
          obtain rfl := empty.unique empty'
          exact ih others'

theorem SerialPrints.unique (h : SerialPrints bus strs s t) (h' : SerialPrints bus strs s t') :
    t = t' := by
  induction h with
  | done s =>
      cases h'
      rfl
  | print first others ih =>
      cases h' with
      | print first' others' =>
          obtain rfl := first.unique first'
          exact ih others'

/-- All that is printed after `serial_init` goes out, whatever the UART is. -/
theorem transmitter_sends (uart : Transmitter bus) (s : σ) (strs : List (List UInt8)) :
    ∃ t, SerialPrints bus strs (serialInit bus s) t ∧ uart.Sends s strs.flatten t := by
  have hinit := serialInit_sends uart s
  obtain ⟨t, hprints, hsends⟩ := serialPrints_sends hinit.set strs
  exact ⟨t, hprints, hinit.trans hsends⟩

/-! ## A UART that takes its time -/

/-- A UART as the driver sees it. After byte `n` it is busy for `latency n` reads of the status; a
byte that comes meanwhile is lost. -/
structure Uart where
  ier : UInt8
  lcr : UInt8
  divisorLo : UInt8
  divisorHi : UInt8
  fcr : UInt8
  mcr : UInt8
  latency : ℕ → ℕ
  busy : ℕ
  sent : List UInt8
  lost : List UInt8

namespace Uart

/-- `DLAB`: the first two ports stand for the divisor. -/
def dlab (u : Uart) : Bool := u.lcr &&& 0x80 ≠ 0

def send (v : UInt8) (u : Uart) : Uart :=
  if u.busy = 0 then { u with sent := u.sent ++ [v], busy := u.latency u.sent.length }
  else { u with lost := u.lost ++ [v] }

def outb (p : UInt16) (v : UInt8) (u : Uart) : Uart :=
  if p = port then if u.dlab then { u with divisorLo := v } else u.send v
  else if p = port + 1 then if u.dlab then { u with divisorHi := v } else { u with ier := v }
  else if p = port + 2 then { u with fcr := v }
  else if p = port + 3 then { u with lcr := v }
  else if p = port + 4 then { u with mcr := v }
  else u

/-- The status says whether there is room for a byte. -/
def inb (p : UInt16) (u : Uart) : UInt8 × Uart :=
  if p = port + 5 then (if u.busy = 0 then 0x60 else 0, { u with busy := u.busy - 1 }) else (0, u)

end Uart

/-- The UART at the ports of COM1. -/
def uartBus : Bus Uart := ⟨Uart.inb, Uart.outb, fun _ u => (0, u), fun _ _ u => u⟩

/-- 8 bits, no parity, and the divisor 3. -/
structure Uart.Configured (u : Uart) : Prop where
  lcr : u.lcr = 0x03
  lo : u.divisorLo = 0x03
  hi : u.divisorHi = 0x00

namespace Uart

variable {u : Uart}

def line (u : Uart) : Line := ⟨u.lcr, u.divisorLo, u.divisorHi, u.sent, u.lost⟩

theorem outb_data (u : Uart) (v : UInt8) :
    u.outb port v = if u.dlab then { u with divisorLo := v } else u.send v := if_pos rfl

theorem outb_one (u : Uart) (v : UInt8) :
    u.outb (port + 1) v = if u.dlab then { u with divisorHi := v } else { u with ier := v } :=
  (if_neg (by decide)).trans (if_pos rfl)

theorem dlab_iff : u.dlab = true ↔ u.line.Latch := decide_eq_true_iff

end Uart

/-- This UART is one. -/
def uartTransmitter : Transmitter uartBus where
  line := Uart.line
  Full u := u.busy ≠ 0
  full_status u hfull := by
    have hstatus : (Uart.inb (port + 5) u).1 = 0 := if_neg hfull
    show (Uart.inb (port + 5) u).1 &&& 0x20 = 0
    rw [hstatus]
    decide
  room_status u hroom := by
    have hstatus : (Uart.inb (port + 5) u).1 = 0x60 := if_pos (not_not.mp hroom)
    show (Uart.inb (port + 5) u).1 &&& 0x20 ≠ 0
    rw [hstatus]
    decide
  status_room u hroom := by
    show ¬ u.busy - 1 ≠ 0
    omega
  status_line _ := rfl
  drains u := (exists_countdown (g := Uart.busy) (fun _ => rfl) u).imp fun _ h => not_not.mpr h
  control _ _ := rfl
  divisor_lo v u hlatch := by
    show (u.outb port v).line = _
    rw [Uart.outb_data, if_pos (Uart.dlab_iff.mpr hlatch)]
    rfl
  divisor_hi v u hlatch := by
    show (u.outb (port + 1) v).line = _
    rw [Uart.outb_one, if_pos (Uart.dlab_iff.mpr hlatch)]
    rfl
  interrupts v u hlatch := by
    show (u.outb (port + 1) v).line = _
    rw [Uart.outb_one, if_neg (mt Uart.dlab_iff.mp hlatch)]
    rfl
  fifo _ _ := rfl
  modem _ _ := rfl
  takes a u hlatch hroom := by
    show (u.outb port a).line = _
    rw [Uart.outb_data, if_neg (mt Uart.dlab_iff.mp hlatch), Uart.send, if_pos (not_not.mp hroom)]
    rfl

/-- After `serial_init`, whatever the state of the UART was, all that `serial_print` is given goes out
in its order, with the line at 8 bits without parity and the divisor 3, and no byte comes while the
UART has no room for it. -/
theorem serial_sends_all (u : Uart) (strs : List (List UInt8)) :
    ∃ t, SerialPrints uartBus strs (serialInit uartBus u) t ∧ t.Configured ∧
      t.sent = u.sent ++ strs.flatten ∧ t.lost = u.lost ∧
      ∀ t', SerialPrints uartBus strs (serialInit uartBus u) t' → t' = t := by
  obtain ⟨t, hprints, hsends⟩ := transmitter_sends uartTransmitter u strs
  exact ⟨t, hprints, ⟨hsends.set.lcr, hsends.set.lo, hsends.set.hi⟩, hsends.sent, hsends.lost,
    fun t' h => h.unique hprints⟩

end LispDos.Serial
