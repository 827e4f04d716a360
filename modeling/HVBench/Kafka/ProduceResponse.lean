import HVBench.Kafka.ConnectionService
import HVBench.Kafka.Primitives
import HVBench.Library.StdMap

/-! Produce responses: what is read of what a broker answers. -/
namespace HVBench
namespace Kafka
open ByteStream

structure PartitionProperties where
  errorCode : Int16
  offset : Int64
  deriving DecidableEq, Repr

abbrev PartitionMap := StdMap Int32 PartitionProperties

abbrev TopicMap := StdMap (List Byte) PartitionMap

structure ProduceResponse where
  correlationId : Int32
  topics : TopicMap

/-- The loops of `ReadResponseMessage`, over the partitions that are left and over the topics.
An error of the broker ends both. -/
def readPartitions : ℕ → Istream → PartitionMap → Except ErrorCode (PartitionMap × Istream)
  | 0, is, partitions => .ok (partitions, is)
  | n + 1, is, partitions =>
    let (key, is) := readInt32 is
    let (errorCode, is) := readInt16 is
    let (offset, is) := readInt64 is
    if errorCode ≠ 0 then .error (.kafka errorCode.toInt)
    else readPartitions n is (partitions.insertNew key ⟨errorCode, offset⟩)

def readTopics : ℕ → Istream → TopicMap → Except ErrorCode (TopicMap × Istream)
  | 0, is, topics => .ok (topics, is)
  | n + 1, is, topics =>
    let (key, is) := readString is
    let (partitionCount, is) := readInt32 is
    match readPartitions partitionCount.toInt.toNat is ∅ with
    | .error e => .error e
    | .ok (partitions, is) => readTopics n is (topics.insertNew key partitions)

def readResponse (is : Istream) : Except ErrorCode (ProduceResponse × Istream) :=
  let (correlationId, is) := readInt32 is
  let (topicCount, is) := readInt32 is
  (readTopics topicCount.toInt.toNat is ∅).map fun (topics, is) => (⟨correlationId, topics⟩, is)

/-- What a broker answers for a topic. -/
structure Answer where
  topicName : List Byte
  partitions : List (Int32 × PartitionProperties)

namespace Broker

/-! A broker lays its answer out as the protocol says. -/

def answerPartition (p : Int32 × PartitionProperties) : List Byte :=
  writeInt32 p.1 ++ (writeInt16 p.2.errorCode ++ writeInt64 p.2.offset)

def answerTopic (answer : Answer) : List Byte :=
  writeString answer.topicName ++
    (writeInt32 (.ofNat 32 answer.partitions.length) ++ answer.partitions.flatMap answerPartition)

def answer (correlationId : Int32) (answers : List Answer) : List Byte :=
  writeInt32 correlationId ++
    (writeInt32 (.ofNat 32 answers.length) ++ answers.flatMap answerTopic)

end Broker

/-- The broker refused what was produced to a partition. -/
def refused (p : Int32 × PartitionProperties) : Bool := p.2.errorCode ≠ 0

theorem readPartitions_write (ps : List (Int32 × PartitionProperties)) (partitions : PartitionMap)
    (rest : List Byte) :
    readPartitions ps.length (.ofBytes (ps.flatMap Broker.answerPartition ++ rest)) partitions =
      match ps.find? refused with
      | some p => .error (.kafka p.2.errorCode.toInt)
      | none => .ok (partitions.insertAll ps, .ofBytes rest) := by
  induction ps generalizing partitions with
  | nil => rfl
  | cons p ps ih =>
    rw [List.length_cons, readPartitions, List.flatMap_cons, Broker.answerPartition]
    simp only [List.append_assoc]
    rw [readInt32_writeInt32]
    dsimp only
    rw [readInt16_writeInt16]
    dsimp only
    rw [readInt64_writeInt64]
    dsimp only
    rw [List.find?_cons]
    by_cases herror : p.2.errorCode = 0
    · have hrefused : refused p = false := decide_eq_false fun hne => hne herror
      rw [if_neg (fun hne => hne herror), ih, hrefused]
      rfl
    · have hrefused : refused p = true := decide_eq_true herror
      rw [if_pos herror, hrefused]

theorem readTopics_write {answers : List Answer}
    (hsized : ∀ answer ∈ answers, answer.topicName.length < 2 ^ 15 ∧
      answer.partitions.length < 2 ^ 31) (topics : TopicMap) (rest : List Byte) :
    readTopics answers.length (.ofBytes (answers.flatMap Broker.answerTopic ++ rest)) topics =
      match (answers.flatMap Answer.partitions).find? refused with
      | some p => .error (.kafka p.2.errorCode.toInt)
      | none =>
        .ok (topics.insertAll (answers.map fun a => (a.topicName, .insertAll ∅ a.partitions)),
          .ofBytes rest) := by
  induction answers generalizing topics with
  | nil => rfl
  | cons answer answers ih =>
    obtain ⟨hname, hcount⟩ := hsized answer List.mem_cons_self
    have hrest := ih fun a ha => hsized a (List.mem_cons_of_mem _ ha)
    rw [List.length_cons, readTopics, List.flatMap_cons, Broker.answerTopic]
    simp only [List.append_assoc]
    rw [readString_writeString hname]
    dsimp only
    rw [readInt32_writeInt32]
    dsimp only
    rw [toInt_ofNat_of_lt (by omega), Int.toNat_natCast, readPartitions_write, List.flatMap_cons,
      List.find?_append]
    cases hfind : answer.partitions.find? refused with
    | some p => rfl
    | none =>
      rw [Option.none_or]
      exact hrest _

/-- A broker's response is read with its correlation id. Where the broker refused what was
produced to a partition, the first such error is what the handler gets. Where it did not, each
partition is found with its offset. -/
theorem response_read_back {answers : List Answer} (hcount : answers.length < 2 ^ 31)
    (hsized : ∀ answer ∈ answers, answer.topicName.length < 2 ^ 15 ∧
      answer.partitions.length < 2 ^ 31)
    (htopics : (answers.map Answer.topicName).Nodup)
    (hpartitions : ∀ answer ∈ answers, (answer.partitions.map Prod.fst).Nodup)
    (correlationId : Int32) (rest : List Byte) :
    match (answers.flatMap Answer.partitions).find? refused with
    | some p =>
      readResponse (.ofBytes (Broker.answer correlationId answers ++ rest)) =
        .error (.kafka p.2.errorCode.toInt)
    | none =>
      ∃ topics, readResponse (.ofBytes (Broker.answer correlationId answers ++ rest)) =
          .ok (⟨correlationId, topics⟩, .ofBytes rest) ∧
        ∀ answer ∈ answers, ∀ p ∈ answer.partitions,
          (topics.lookup answer.topicName).bind (·.lookup p.1) = some p.2 := by
  have hread : readResponse (.ofBytes (Broker.answer correlationId answers ++ rest)) =
      (readTopics answers.length (.ofBytes (answers.flatMap Broker.answerTopic ++ rest)) ∅).map
        fun (topics, is) => (⟨correlationId, topics⟩, is) := by
    unfold readResponse Broker.answer
    rw [List.append_assoc, readInt32_writeInt32]
    dsimp only
    rw [List.append_assoc, readInt32_writeInt32]
    dsimp only
    rw [toInt_ofNat_of_lt (by omega), Int.toNat_natCast]
  rw [readTopics_write hsized] at hread
  cases hfind : (answers.flatMap Answer.partitions).find? refused with
  | some p =>
    rw [hfind] at hread
    exact hread
  | none =>
    rw [hfind] at hread
    refine ⟨_, hread, ?_⟩
    intro answer hanswer p hp
    have hkeys : ((answers.map fun a => (a.topicName, StdMap.insertAll ∅ a.partitions)).map
        Prod.fst).Nodup := by
      rw [List.map_map]
      exact htopics
    have hentry : (answer.topicName, (StdMap.insertAll ∅ answer.partitions : PartitionMap)) ∈
        answers.map fun a => (a.topicName, StdMap.insertAll ∅ a.partitions) :=
      List.mem_map_of_mem hanswer
    rw [StdMap.lookup_of_mem hkeys hentry]
    exact StdMap.lookup_of_mem (hpartitions answer hanswer) hp

/-- The second partition is refused, with `kErrorNotLeaderForPartition`. -/
def refusal : List Answer := [⟨[104], [(0, ⟨0, 5⟩), (1, ⟨6, 0⟩)]⟩]

theorem response_read_back_refused :
    readResponse (.ofBytes (Broker.answer 7 refusal ++ [])) = .error (.kafka 6) := by
  have hread := response_read_back (show refusal.length < 2 ^ 31 by decide) (by decide)
    (by decide) (by decide) 7 []
  exact hread

end Kafka
end HVBench
