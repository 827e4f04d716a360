import HVBench.Controller.SendLoop

/-! What the records that the send loop writes say about the messages it handed over. -/
namespace HVBench
namespace SendLoop

variable {gen : ℕ → ScheduledMsg}

/-- What was handed over and what was written stay. -/
structure Grows (s t : State) : Prop where
  handed : s.handed <+: t.handed
  records : s.records <+: t.records

theorem Grows.refl (s : State) : Grows s s := ⟨List.prefix_refl _, List.prefix_refl _⟩

theorem Grows.trans {s t u : State} (h : Grows s t) (h' : Grows t u) : Grows s u :=
  ⟨h.handed.trans h'.handed, h.records.trans h'.records⟩

end SendLoop
end HVBench
