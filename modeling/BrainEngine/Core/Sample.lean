import BrainEngine.Core.Passes
import BrainEngine.Core.Retrieve

/-! # Small projects

`sample` knows the digests of a few texts and the glob `**/*`; `treeOf` lays out a directory of
regular files, and `constant` is an embedder that gives every text the same vector. Concrete runs of
the model are made of these. -/

namespace BrainEngine.Core.Sample

open BrainEngine.Rust.Str BrainEngine.Lib.Atomic BrainEngine.Core.External BrainEngine.Core.Walk
open BrainEngine.Core.Embedding BrainEngine.Core.Passes BrainEngine.Core.Retrieve

/-- SHA-256 of the contents that occur. -/
def digests : List (String × String) := [
  ("a", "ca978112ca1bbdcafac231b39a23dc4da786eff8147c4e72b9807785afee48bb"),
  ("b", "3e23e8160039594a33894f6564e1b1348bbd7a0088d42c4acb73eeaed59c009d"),
  ("c", "2e7d2c03a9507ae265ecf5b5356885a53393a2029d241394997265a1a25aefc6"),
  ("b\nc", "6c516cfc306e53636a409aa84780db9730490c6b3928ccab0f183a8fbc39124e")]

/-- The outside world of the samples, right on what they contain. -/
def sample : Extern where
  sha256Hex text := match digests.find? fun d => d.1.toList = text with
    | some d => d.2.toList
    | none => []
  globError _ := none
  globSetError _ := none
  globMatches pat _ := pat = "**/*".toList
  unicodeAlphanumeric _ := false
  schemaError _ _ := "Append with different schema".toList

/-- The bytes of an ASCII text. -/
def ascii (s : String) : List UInt8 := s.toList.map fun c => c.toNat.toUInt8

/-- A directory of regular files, each with its name, its modification time and its bytes. -/
def treeOf (files : List (String × ℕ × List UInt8)) : Tree where
  walker := files.map fun f => .ok {
    isFile := true, absPath := f.1.toList, components := some [f.1.toList]
    metadata := some { len := f.2.2.length.toUInt64, modified := some f.2.1 } }
  read path := match files.find? fun f => f.1.toList = path with
    | some f => .ok f.2.2
    | none => .error "No such file or directory (os error 2)".toList

def aAndB : Tree := treeOf [("a.txt", 1, ascii "a"), ("b.txt", 1, ascii "b")]

/-- The first file of two is edited: its chunk gets the next id. -/
def firstEdited : Tree := treeOf [("a.txt", 2, ascii "c"), ("b.txt", 1, ascii "b")]

/-- The last file is edited: its chunk gets the id it had. -/
def lastEdited : Tree := treeOf [("a.txt", 1, ascii "a"), ("b.txt", 2, ascii "c")]

/-- A request for a directory at a time, with the default configuration and no flags. -/
def request (tree : Tree) (now : ℕ) : Request := ⟨tree, {}, now, false, false⟩

/-- An embedder for which every text is the vector of `dim` ones. -/
def constant (modelId : String) (dim : ℕ) (h : dim < 2 ^ 64) : Embedder where
  modelId := modelId.toList
  dim := dim
  dim_lt := h
  embed texts := .ok (texts.map fun _ => List.replicate dim 0x3f800000)

theorem onePerText_constant (modelId : String) (dim : ℕ) (h : dim < 2 ^ 64) :
    OnePerText (constant modelId dim h) := by
  intro texts vectors hv
  rw [← Except.ok.inj hv, List.length_map]

/-- An embedder for the samples. -/
def bge : Embedder := constant "bge" 2 (by decide)

/-- A model of the same dimension. -/
def nomic : Embedder := constant "nomic" 2 (by decide)

/-- A search among vectors that are all the same: the first rows, at distance `0`. -/
def scan : Lance where
  nearest tbl _ limit := .ok ((tbl.rows.take limit).map fun row => (row, 0))
  score _ := 0x3f800000

theorem lawful_scan : scan.Lawful := by
  refine ⟨?_, ?_⟩
  · intro tbl query limit hits h
    rw [← Except.ok.inj h, List.map_map]
    have hid : (tbl.rows.take limit).map (Prod.fst ∘ fun row => (row, (0 : Vectors.F32))) =
        tbl.rows.take limit := List.map_id _
    rw [hid]
    exact (List.take_sublist _ _).subperm
  · intro tbl query limit hits h
    rw [← Except.ok.inj h, List.length_map]
    exact List.length_take_le _ _

/-- The state after `n` steps; there are so many steps in the runs it is used for. -/
def stateAfter (x : Extern) (n : ℕ) (p : Prog Op Unit) (s : Project) : Project :=
  ((Prog.after (exec x) n p s).map Prod.snd).getD s

theorem after_stateAfter {x : Extern} {n : ℕ} {p : Prog Op Unit} {s : Project}
    (h : (Prog.after (exec x) n p s).isSome) :
    ∃ q, Prog.after (exec x) n p s = some (q, stateAfter x n p s) := by
  obtain ⟨⟨q, t⟩, hq⟩ := Option.isSome_iff_exists.mp h
  exact ⟨q, by simp [stateAfter, hq]⟩

/-- The state after a program, the old one if it fails. -/
def stateEval (x : Extern) (p : Prog Op Unit) (s : Project) : Project :=
  match Prog.eval (exec x) p s with
  | .ok (_, t) => t
  | .error _ => s

theorem eval_stateEval {x : Extern} {p : Prog Op Unit} {s : Project}
    (h : (Prog.eval (exec x) p s).isOk) : Prog.eval (exec x) p s = .ok ((), stateEval x p s) := by
  unfold stateEval
  rcases hr : Prog.eval (exec x) p s with f | ⟨a, t⟩
  · rw [hr] at h
    simp [Except.isOk, Except.toBool] at h
  · rfl

/-- The project after a first run. -/
def indexedOnce : Project := stateEval sample (pass .cli (request aAndB 1) bge) Project.empty

theorem eval_indexedOnce : Prog.eval (exec sample) (pass .cli (request aAndB 1) bge) Project.empty =
    .ok ((), indexedOnce) :=
  eval_stateEval (by decide)

/-- A project that has been indexed without embedding. -/
def notEmbedded : Project :=
  stateEval sample (pass .cli { request aAndB 1 with noEmbed := true } bge) Project.empty

end BrainEngine.Core.Sample
