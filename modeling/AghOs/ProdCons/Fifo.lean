import AghOs.ProdCons.SemInv
import AghOs.ProdCons.MonitorInv

/-!
# No loss, no duplication, first in first out

`fifo`: as long as the index of a push is an `int`, and so with up to `2 ^ 30` places
in any case, the pipe of either build is a queue between the files and the consumers
(`Pipe.Ok`), and in the semaphore build, which does not look at the return codes, no
push and no pop fails.
-/

namespace AghOs.ProdCons

variable {p c : ℕ}

/-- **First in, first out.** For any number of producers and consumers, any
    buffer size and any files, in the runs whose pushes are in range; with at most
    `2 ^ 30` places every push is. -/
theorem fifo (size : ℕ) (file : Fin p → Option (List UInt8)) :
    (∀ s : Sem.State p c, (Sem.program size file).ReachIf Sem.PushesInRange s →
      (s.mem.pipe.Ok size (fun i => (file i).getD []) fun i => (s.producer i).toPush (file i)) ∧
      (∀ i line, (s.producer i).pc = .push line →
        (bufferPush s.mem.pipe.buffer ⟨i, line⟩).1 = 0) ∧
      ∀ j, (s.consumer j).pc = .pop → (bufferPop s.mem.pipe.buffer).1 = 0) ∧
    (∀ s : Monitor.State p c, (Monitor.program size file).ReachIf Monitor.PushesInRange s →
      s.pipe.Ok size (fun i => (file i).getD []) fun i => (s.producer i).toPush (file i)) ∧
    (size ≤ 2 ^ 30 →
      (∀ s : Sem.State p c, (Sem.program size file).Reach s → ∀ l, Sem.PushesInRange s l) ∧
      ∀ s : Monitor.State p c, (Monitor.program size file).Reach s →
        ∀ l, Monitor.PushesInRange s l) := by
  refine ⟨fun s h => ?_, fun s h => Monitor.reach_ok (fun _ _ => id) h, fun hsize =>
    ⟨fun s h l => (Sem.reach_inv h).pushesInRange hsize l,
      fun s h l => (Monitor.reach_inv h).pushesInRange hsize l⟩⟩
  have hI := Sem.reach_inv h
  exact ⟨Sem.reach_ok (fun _ _ => id) h, fun i line hpc => (hI.push hpc).2.1,
    fun j hpc => ((hI.consumers j).pop hpc).2.1⟩

/-- Two producers push their lines into a buffer with one place. -/
theorem fifo_two : ∃ s : Sem.State 2 1,
    s.mem.pipe.popped = [some ⟨1, [98]⟩] ∧ s.mem.pipe.pushed = [⟨1, [98]⟩, ⟨0, [97]⟩] ∧
      s.mem.pipe.Ok 1 (fun i => if i = 0 then [97, 10, 10] else [98])
        fun i => (s.producer i).toPush (some (if i = 0 then [97, 10, 10] else [98])) := by
  obtain ⟨s, hr, hs⟩ := Machine.Reach.of_run
    (M := (Sem.program 1 fun i => some (if i = 0 then [97, 10, 10] else [98]) :
      Machine (Sem.State 2 1) (Sem.Label 2 1)))
    (List.replicate 7 (.producer 1) ++ List.replicate 4 (.producer 0) ++ [.producer 0] ++
      List.replicate 6 (.consumer 0) ++ List.replicate 4 (.producer 0))
    (fun s => (s.mem.pipe.popped, s.mem.pipe.pushed))
    ([some ⟨1, [98]⟩], [⟨1, [98]⟩, ⟨0, [97]⟩]) rfl (by decide +kernel)
  simp only [Prod.mk.injEq] at hs
  have hfifo := fifo (p := 2) (c := 1) 1 fun i => some (if i = 0 then [97, 10, 10] else [98])
  have hin := (hfifo.2.2 (by decide)).1
  exact ⟨s, hs.1, hs.2, (hfifo.1 s (hr.mono_of fun s l hs _ => hin s hs l)).1⟩

end AghOs.ProdCons
