import TermForest.Format.Command
import TermForest.Proofs.Format.Node

/-!
# Commands read back

What is written for a rejection or a command is a record that names its tag first. It is plain, has
at most two levels, and reads as the rejection or the command if its numbers fit 64 bits.
-/

namespace TermForest

open Json (need)
open Json.Reader (Reads)

namespace Json

/-! ### Documents kept whole -/

mutual

/-- A plain document can be kept whole where there is room for it. -/
theorem isWhole_of_plain : ∀ (j : Json) {room : Nat}, j.Plain → j.depth ≤ room →
    isWhole room j = true
  | .null, _, _, _ => by rw [isWhole]
  | .bool _, _, _, _ => by rw [isWhole]
  | .int _, _, _, _ => by rw [isWhole]
  | .text _, _, h, _ => by
    rw [isWhole]
    exact h
  | .array items, room + 1, h, hroom => by
    rw [isWhole]
    exact areWhole_of_plain items h (Nat.le_of_succ_le_succ hroom)
  | .object members, room + 1, h, hroom => by
    rw [isWhole]
    exact membersAreWhole_of_plain members h (Nat.le_of_succ_le_succ hroom)

theorem areWhole_of_plain : ∀ (js : List Json) {room : Nat}, AllPlain js →
    itemsDepth js ≤ room → areWhole room js = true
  | [], _, _, _ => by rw [areWhole]
  | j :: js, _, h, hroom => by
    rw [itemsDepth, Nat.max_le] at hroom
    rw [areWhole, isWhole_of_plain j h.1 hroom.1, areWhole_of_plain js h.2 hroom.2]
    rfl

theorem membersAreWhole_of_plain : ∀ (ms : List (Option String × Json)) {room : Nat},
    MembersPlain ms → membersDepth ms ≤ room → membersAreWhole room ms = true
  | [], _, _, _ => by rw [membersAreWhole]
  | (key, j) :: ms, _, h, hroom => by
    rw [membersDepth, Nat.max_le] at hroom
    rw [membersAreWhole, h.1, isWhole_of_plain j h.2.1 hroom.1,
      membersAreWhole_of_plain ms h.2.2 hroom.2]
    rfl

end

/-! ### Tagged records -/

theorem Reader.nat64_nat {n : Nat} (h : n < UInt64.size) (room : Nat) :
    nat64 room (.nat n) = some n :=
  if_pos ⟨Int.natCast_nonneg n, h⟩

theorem need_cons {α : Type} (item : Reader α) (room : Nat) (key : String) (j : Json)
    (ms : List (String × Json)) (name : String) :
    need item room ((key, j) :: ms) name =
      if name = key then item room j else need item room ms name := by
  rw [need, need, List.lookup_cons]
  by_cases h : name = key
  · simp [h]
  · simp [h, beq_eq_false_iff_ne.2 h]

section tagged

variable {tag : String} {t : Json} {ms : List (String × Json)} {names : List String}

/-- A record that names its tag first, and only there. -/
theorem tagged_record (h : ∀ m ∈ ms, m.1 ≠ tag) :
    tagged tag (.record ((tag, t) :: ms)) = some (t, .named ms) := by
  have htag : ((tag, t) :: ms).filter (fun m => decide (m.1 = tag)) = [(tag, t)] := by
    rw [List.filter_cons_of_pos (by simp), List.filter_eq_nil_iff.2 fun m hm => by simpa using h m hm]
  have hrest : ((tag, t) :: ms).filter (fun m => decide (m.1 ≠ tag)) = ms := by
    rw [List.filter_cons_of_neg (by simp), List.filter_eq_self.2 fun m hm => by simpa using h m hm]
  have hmembers := Reader.mapM_key ((tag, t) :: ms)
  rw [record, tagged, hmembers, Option.bind_eq_bind, Option.bind_some, htag, hrest]
  exact rfl

theorem fields_named (hnames : ∀ m ∈ ms, m.1 ∈ names) (hnodup : (ms.map Prod.fst).Nodup) :
    (Payload.named ms).fields names = some ms := by
  have hfilter : ms.filter (fun m => decide (m.1 ∈ names)) = ms :=
    List.filter_eq_self.2 fun m hm => decide_eq_true (hnames m hm)
  rw [Payload.fields, hfilter, if_pos hnodup]

end tagged

end Json

/-! ### Rejections -/

namespace Rejection

/-- The id and the counts of a rejection are numbers of 64 bits. -/
def Storable : Rejection → Prop
  | .parameterCount node expected actual =>
    node < UInt64.size ∧ expected < UInt64.size ∧ actual < UInt64.size
  | r => r.node < UInt64.size

theorem depth_toJson (r : Rejection) : r.toJson.depth = 1 := by
  cases r <;> rfl

theorem plain_toJson {r : Rejection} (h : r.Storable) : r.toJson.Plain := by
  cases r <;>
    simp only [Storable, node] at h <;>
    simp only [toJson, Json.plain_record_iff, List.forall_mem_cons, node] <;>
    simp [Json.plain_nat, Json.Plain, Json.str, h]

theorem reads_toJson {r : Rejection} (h : r.Storable) : Rejection.read.Reads r r.toJson := by
  intro room _
  cases r with
  | parameterCount node expected actual =>
    obtain ⟨hnode, hexpected, hactual⟩ := h
    rw [read, toJson, Json.tagged_record (by simp)]
    simp only [Option.bind_eq_bind, Option.bind_some, tagOf?, Json.str, tag]
    rw [Json.fields_named (by simp) (by simp)]
    simp [Json.need_cons, Json.Reader.nat64_nat, hnode, hexpected, hactual, Rejection.node]
  | _ =>
    rw [read, toJson, Json.tagged_record (by simp)]
    simp only [Option.bind_eq_bind, Option.bind_some, tagOf?, Json.str, tag]
    rw [Json.fields_named (by simp) (by simp)]
    simp only [Storable, node] at h
    simp [Json.need_cons, Json.Reader.nat64_nat, h, node, Json.Reader.text]

end Rejection

/-! ### Commands -/

namespace Command

/-- The ids, the level and the rejection of a command are made of numbers of 64 bits. -/
def Storable : Command → Prop
  | .execute id | .detach id | .moveToBoard id | .moveToDefs id | .startLevel id => id < UInt64.size
  | .moveToSlot node hole => node < UInt64.size ∧ hole < UInt64.size
  | .raiseError why => why.Storable
  | .undo | .redo | .clearError | .cleanup | .detectCompletion => True

theorem depth_toJson_le (c : Command) : c.toJson.depth ≤ 2 := by
  cases c with
  | raiseError why =>
    refine Json.depth_record_le_iff.2 ⟨by decide, ?_⟩
    simp [Json.str, Json.depth, why.depth_toJson]
  | _ => exact Nat.le_succ 1

theorem plain_toJson {c : Command} (h : c.Storable) : c.toJson.Plain := by
  cases c <;>
    simp only [Storable] at h <;>
    simp only [toJson, Json.plain_record_iff, List.forall_mem_cons] <;>
    simp [Json.plain_nat, Json.Plain, Json.str, h, Rejection.plain_toJson]

theorem reads_toJson {c : Command} (h : c.Storable) : Command.read.Reads c c.toJson := by
  intro room hroom
  -- What is left of a command with one field once its tag is known.
  have hfield : ∀ {α : Type} {o : Option α} {a : α}, o = some a → ∀ f : α → Command,
      (o.bind fun a => some (f a)) = some (f a) := by
    rintro _ _ a rfl f
    rfl
  rw [read, Json.isWhole_of_plain _ (plain_toJson h) hroom]
  cases c with
  | moveToSlot node hole =>
    have hboth : ((Json.Reader.nat64 room (.nat node)).bind fun node =>
        (Json.Reader.nat64 room (.nat hole)).bind fun hole => some (moveToSlot node hole)) =
          some (moveToSlot node hole) := by
      rw [Json.Reader.nat64_nat h.1, Json.Reader.nat64_nat h.2]
      rfl
    rw [toJson, Json.tagged_record (by simp)]
    exact hboth
  | raiseError why =>
    have hwhy : why.toJson.depth ≤ room := by
      have hdepth := (Json.depth_record_le_iff.1 hroom).2 ("error", why.toJson) (by simp)
      exact Nat.le_trans hdepth (Nat.sub_le room 1)
    rw [toJson, Json.tagged_record (by simp)]
    exact hfield (Rejection.reads_toJson h room hwhy) raiseError
  | undo | redo | clearError | cleanup | detectCompletion =>
    rw [toJson, Json.tagged_record (by simp)]
    rfl
  | execute | detach | moveToBoard | moveToDefs | startLevel =>
    rw [toJson, Json.tagged_record (by simp)]
    exact hfield (Json.Reader.nat64_nat h room) _

end Command

end TermForest
