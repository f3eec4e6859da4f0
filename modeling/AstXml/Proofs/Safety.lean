import AstXml.Proofs.Course
import AstXml.Sink

/-!
An accepted document is dumped without a fault, whatever the names to start from, and a sink
without a limit takes all of it.
-/
namespace AstXml
open Outcome

namespace Snapshot

/-- The index tables of a snapshot are as long as the declaration table and lead into it, and so
does the definition of every declaration. -/
structure IndexedWithin (s : Snapshot) : Prop where
  canonicals_size : s.canonicals.size = s.document.decls.size
  canonicals_inside : ∀ c ∈ s.canonicals, s.HasDecl c
  bodies_size : s.bodies.size = s.document.decls.size
  bodies_inside : ∀ b, some b ∈ s.bodies → s.HasDecl b
  definitions_inside : ∀ d, s.HasDecl d →
    ∃ body, s.definition d = .ok body ∧ ∀ b, body = some b → s.HasDecl b

theorem Sound.indexedWithin {s : Snapshot} (sound : s.Sound) : s.IndexedWithin where
  canonicals_size := sound.canonicals_size
  canonicals_inside := by
    intro c member
    obtain ⟨i, inside, here⟩ := Array.mem_iff_getElem.mp member
    have small := sound.wellFormed.small .decls
    simp only [Document.size, Document.maxTable] at small
    have bound : i < 4294967296 := by
      rw [sound.canonicals_size] at inside
      omega
    have found : s.canonical (.ofIndex i) = .ok c := by
      rw [canonical_eq_ok, DeclId.index_ofIndex bound]
      exact Array.getElem?_eq_some_iff.mpr ⟨inside, here⟩
    exact sound.hasDecl_of_canonical (sound.canonical_idem found)
  bodies_size := sound.bodies_within.1
  bodies_inside := by
    intro b member
    obtain ⟨i, inside, here⟩ := Array.mem_iff_getElem.mp member
    exact sound.bodies_within.2 i b (Array.getElem?_eq_some_iff.mpr ⟨inside, here⟩)
  definitions_inside := fun _ inside => sound.definition_total inside

end Snapshot

namespace Sink

theorem writeAll_endless {flushFails : Bool} (pieces : List String) (before : ByteArray) :
    writeAll pieces ⟨none, flushFails, before⟩ =
      (flush ⟨none, flushFails, before⟩,
        ⟨none, flushFails, before ++ (String.join pieces).toUTF8⟩) := by
  induction pieces generalizing before with
  | nil => simp [writeAll]
  | cons piece rest ih =>
    have text : (String.join (piece :: rest)).toUTF8 =
        piece.toUTF8 ++ (String.join rest).toUTF8 := by
      simp
    rw [text, ← ByteArray.append_assoc]
    exact ih (before ++ piece.toUTF8)

end Sink

/-- On an accepted document neither the index nor a dump ever looks beyond the end of a table, and
a sink that takes everything has the whole text in the end. -/
theorem dump_safe (d : Document) (accepted : d.validate = .ok ()) (options : Options) :
    ∃ s report, Snapshot.ofDocument d = .ok s ∧ s.document = d ∧ s.IndexedWithin ∧
      dump s options = .ok report ∧
      ∀ before, Sink.writeAll report.pieces ⟨none, false, before⟩ =
        (none, ⟨none, false, before ++ report.text.toUTF8⟩) := by
  have wellFormed := d.validate_ok_iff.mp accepted
  obtain ⟨s, indexed, same, sound⟩ := Snapshot.ofDocument_sound wellFormed
  obtain ⟨report, ⟨course⟩⟩ := Dump.course_total sound options
  have dumped := course.dumped sound
  exact ⟨s, report, indexed, same, sound.indexedWithin, dumped, Sink.writeAll_endless _⟩

theorem redeclared_safe : Document.redeclared.validate = .ok () ∧
    ∃ s report, Snapshot.ofDocument .redeclared = .ok s ∧ s.document = .redeclared ∧
      s.IndexedWithin ∧ dump s ⟨["S::a", "s"], .element⟩ = .ok report ∧
      ∀ before, Sink.writeAll report.pieces ⟨none, false, before⟩ =
        (none, ⟨none, false, before ++ report.text.toUTF8⟩) :=
  ⟨rfl, dump_safe .redeclared rfl ⟨["S::a", "s"], .element⟩⟩

end AstXml
