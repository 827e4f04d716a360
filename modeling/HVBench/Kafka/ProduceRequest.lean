import HVBench.Kafka.Messages

/-! Produce requests on the wire, and what a broker reads that takes them from there with the
same primitives. -/
namespace HVBench
namespace Kafka
open ByteStream

structure Partition where
  partition : Int32
  messages : MessageSet

structure Topic where
  topicName : List Byte
  partitions : List Partition

structure ProduceRequest where
  correlationId : Int32
  requiredAcks : Int16
  timeout : Int32
  topics : List Topic

namespace ProduceRequest

def create : ProduceRequest where
  correlationId := 0
  requiredAcks := 1
  timeout := 10000
  topics := []

def apiKey : Int16 := 0

def apiVersion : Int16 := 0

/-- Change the entry that `FindTopicByName` or `FindTopicPartitionByNumber` finds, or the one
that it creates at the end. -/
def update {α : Type} (found : α → Bool) (new : α) (f : α → α) : List α → List α
  | [] => [f new]
  | x :: xs => if found x then f x :: xs else x :: update found new f xs

def addMessage (request : ProduceRequest) (message : MessageAndOffset) (topicName : List Byte)
    (partition : Int32) : ProduceRequest :=
  { request with
    topics :=
      update (fun topic => topic.topicName = topicName) ⟨topicName, []⟩
        (fun topic =>
          { topic with
            partitions :=
              update (fun p => p.partition = partition) ⟨partition, []⟩
                (fun p => { p with messages := p.messages ++ [{ message with offset := 0 }] })
                topic.partitions })
        request.topics }

def addValue (request : ProduceRequest) (value : List Byte) (topicName : List Byte)
    (partition : Int32) : ProduceRequest :=
  request.addMessage ⟨0, 0, none, some value, []⟩ topicName partition

end ProduceRequest

/-- `RequestMessageWireSize`, of what it adds for a partition and for a topic. -/
def partitionWireSize (p : Partition) : Int32 := 4 + 4 + messageSetWireSize p.messages

def topicWireSize (topic : Topic) : Int32 :=
  topic.partitions.foldl (fun size p => size + partitionWireSize p)
    (stringWireSize topic.topicName + 4)

def requestMessageWireSize (request : ProduceRequest) : Int32 :=
  request.topics.foldl (fun size topic => size + topicWireSize topic) (2 + 4 + 4)

def requestWireSize (request : ProduceRequest) (clientId : List Byte) : Int32 :=
  2 + 2 + 4 + stringWireSize clientId + requestMessageWireSize request

section
variable (crc32 : List Byte → Int32)

def writePartition (p : Partition) : List Byte :=
  writeInt32 p.partition ++
    (writeInt32 (messageSetWireSize p.messages) ++ writeMessageSet crc32 p.messages)

def writeTopic (topic : Topic) : List Byte :=
  writeString topic.topicName ++
    (writeInt32 (.ofNat 32 topic.partitions.length) ++
      topic.partitions.flatMap (writePartition crc32))

def writeRequestMessage (request : ProduceRequest) : List Byte :=
  writeInt16 request.requiredAcks ++
    (writeInt32 request.timeout ++
      (writeInt32 (.ofNat 32 request.topics.length) ++ request.topics.flatMap (writeTopic crc32)))

/-- What follows the size. -/
def writeBody (clientId : List Byte) (request : ProduceRequest) : List Byte :=
  writeInt16 ProduceRequest.apiKey ++
    (writeInt16 ProduceRequest.apiVersion ++
      (writeInt32 request.correlationId ++
        (writeString clientId ++ writeRequestMessage crc32 request)))

def writeRequest (clientId : List Byte) (request : ProduceRequest) : List Byte :=
  writeInt32 (requestWireSize request clientId) ++ writeBody crc32 clientId request

end

/-! The sizes that are declared are those that are written, as far as 32 bits hold them. -/

section
variable (crc32 : List Byte → Int32)

theorem partitionWireSize_eq (p : Partition) :
    partitionWireSize p = .ofNat 32 (writePartition crc32 p).length := by
  simp only [writePartition, List.length_append, length_writeInt32]
  rw [BitVec.ofNat_add, BitVec.ofNat_add, ← messageSetWireSize_eq, partitionWireSize,
    BitVec.add_assoc]
  rfl

theorem foldl_size {α : Type} {size : α → Int32} {write : α → List Byte}
    (hsize : ∀ x, size x = .ofNat 32 (write x).length) (items : List α) (start : Int32) :
    items.foldl (fun total x => total + size x) start =
      start + .ofNat 32 (items.flatMap write).length := by
  induction items generalizing start with
  | nil => exact (BitVec.add_zero start).symm
  | cons x items ih =>
    rw [List.foldl_cons, ih, hsize, List.flatMap_cons, List.length_append, BitVec.ofNat_add,
      BitVec.add_assoc]

theorem topicWireSize_eq (topic : Topic) :
    topicWireSize topic = .ofNat 32 (writeTopic crc32 topic).length := by
  unfold topicWireSize writeTopic
  rw [foldl_size (partitionWireSize_eq crc32), stringWireSize_eq, List.length_append,
    List.length_append, length_writeInt32, BitVec.ofNat_add, BitVec.ofNat_add, BitVec.add_assoc]
  rfl

theorem requestMessageWireSize_eq (request : ProduceRequest) :
    requestMessageWireSize request = .ofNat 32 (writeRequestMessage crc32 request).length := by
  unfold requestMessageWireSize writeRequestMessage
  rw [foldl_size (topicWireSize_eq crc32)]
  simp only [List.length_append, length_writeInt16, length_writeInt32]
  rw [BitVec.ofNat_add, BitVec.ofNat_add, BitVec.ofNat_add, BitVec.add_assoc, BitVec.add_assoc]
  rfl

theorem requestWireSize_eq (clientId : List Byte) (request : ProduceRequest) :
    requestWireSize request clientId = .ofNat 32 (writeBody crc32 clientId request).length := by
  unfold requestWireSize writeBody
  rw [requestMessageWireSize_eq crc32, stringWireSize_eq]
  simp only [List.length_append, length_writeInt16, length_writeInt32, length_writeString]
  simp only [BitVec.ofNat_add, BitVec.add_assoc]
  rfl

end

def Partition.plain (p : Partition) : Partition :=
  { p with messages := p.messages.map MessageAndOffset.plain }

def Topic.plain (topic : Topic) : Topic :=
  { topic with partitions := topic.partitions.map Partition.plain }

/-- What is read of a request none of whose messages is compressed. -/
def ProduceRequest.plain (request : ProduceRequest) : ProduceRequest :=
  { request with topics := request.topics.map Topic.plain }

namespace Broker
variable (codec : Compression → Bytes → Except ErrorCode (List Byte))

/-! A broker takes a request apart in the order in which the protocol lays it out. -/

def readPartition (is : Istream) : Option (Partition × Istream) :=
  let (partition, is) := readInt32 is
  let (size, is) := readInt32 is
  match readMessageSet codec (is.data.length + 1) is (size.signExtend 64) 0 [] none with
  | some (messages, none, is) => some (⟨partition, messages⟩, is)
  | _ => none

def readTopic (is : Istream) : Option (Topic × Istream) :=
  let (topicName, is) := readString is
  let (count, is) := readInt32 is
  (is.readMany (readPartition codec) count.toNat).map fun (partitions, is) =>
    (⟨topicName, partitions⟩, is)

/-- A produce request and the client's id, if the size that comes first is that of the rest. -/
def readRequest (is : Istream) : Option ((List Byte × ProduceRequest) × Istream) :=
  let (size, body) := readInt32 is
  let (apiKey, is) := readInt16 body
  let (apiVersion, is) := readInt16 is
  let (correlationId, is) := readInt32 is
  let (clientId, is) := readString is
  let (requiredAcks, is) := readInt16 is
  let (timeout, is) := readInt32 is
  let (count, is) := readInt32 is
  match is.readMany (readTopic codec) count.toNat with
  | none => none
  | some (topics, is) =>
    if apiKey = ProduceRequest.apiKey ∧ apiVersion = ProduceRequest.apiVersion ∧
        body.data.length = size.toNat + is.data.length then
      some ((clientId, ⟨correlationId, requiredAcks, timeout, topics⟩), is)
    else none

end Broker

/-- A request that the lengths and counts of the protocol can hold, without compression. -/
structure ProduceRequest.Sized (crc32 : List Byte → Int32) (clientId : List Byte)
    (request : ProduceRequest) : Prop where
  client : clientId.length < 2 ^ 15
  topicName : ∀ topic ∈ request.topics, topic.topicName.length < 2 ^ 15
  plain : ∀ topic ∈ request.topics, ∀ p ∈ topic.partitions, ∀ m ∈ p.messages, m.Plain
  body : (writeBody crc32 clientId request).length < 2 ^ 31

variable {crc32 : List Byte → Int32}

section
variable (codec : Compression → Bytes → Except ErrorCode (List Byte))
open Broker

theorem readPartition_writePartition {p : Partition} (hplain : ∀ m ∈ p.messages, m.Plain)
    (hlength : (writePartition crc32 p).length < 2 ^ 31) (rest : List Byte) :
    readPartition codec (.ofBytes (writePartition crc32 p ++ rest)) =
      some (p.plain, .ofBytes rest) := by
  simp only [writePartition, List.length_append, length_writeInt32] at hlength
  unfold readPartition writePartition
  rw [List.append_assoc, readInt32_writeInt32]
  dsimp only
  rw [List.append_assoc, readInt32_writeInt32]
  dsimp only
  have hfuel : p.messages.length < (Istream.ofBytes
      (writeMessageSet crc32 p.messages ++ rest)).data.length + 1 := by
    have hcount := length_le_writeMessageSet crc32 p.messages
    show p.messages.length < (writeMessageSet crc32 p.messages ++ rest).length + 1
    rw [List.length_append]
    omega
  rw [messageSetWireSize_eq crc32, signExtend_ofNat (by omega),
    readMessageSet_writeMessageSet hplain (by omega) hfuel]
  rfl

theorem readTopic_writeTopic {topic : Topic} (hname : topic.topicName.length < 2 ^ 15)
    (hplain : ∀ p ∈ topic.partitions, ∀ m ∈ p.messages, m.Plain)
    (hlength : (writeTopic crc32 topic).length < 2 ^ 31) (rest : List Byte) :
    readTopic codec (.ofBytes (writeTopic crc32 topic ++ rest)) =
      some (topic.plain, .ofBytes rest) := by
  simp only [writeTopic, List.length_append, length_writeInt32] at hlength
  have hcount : topic.partitions.length ≤
      (topic.partitions.flatMap (writePartition crc32)).length := by
    apply length_le_length_flatMap
    intro p _
    rw [writePartition, List.length_append, length_writeInt32]
    omega
  have hpartitions : ∀ p ∈ topic.partitions, ∀ rest,
      readPartition codec (.ofBytes (writePartition crc32 p ++ rest)) =
        some (p.plain, .ofBytes rest) := by
    intro p hp rest
    have hle : (writePartition crc32 p).length ≤
      (topic.partitions.flatMap (writePartition crc32)).length := length_le_flatMap hp
    exact readPartition_writePartition codec (hplain p hp) (by omega) rest
  unfold readTopic writeTopic
  rw [List.append_assoc, readString_writeString hname]
  dsimp only
  rw [List.append_assoc, readInt32_writeInt32]
  dsimp only
  rw [toNat_ofNat_of_lt (by omega), Istream.readMany_flatMap hpartitions]
  rfl

theorem readRequest_writeRequest {clientId : List Byte} {request : ProduceRequest}
    (hsized : request.Sized crc32 clientId) (rest : List Byte) :
    readRequest codec (.ofBytes (writeRequest crc32 clientId request ++ rest)) =
      some ((clientId, request.plain), .ofBytes rest) := by
  have hbody := hsized.body
  have hlength : (writeBody crc32 clientId request).length =
      (2 + (2 + (4 + (2 + clientId.length)))) + (2 + (4 + (4 +
        (request.topics.flatMap (writeTopic crc32)).length))) := by
    simp only [writeBody, writeRequestMessage, List.length_append, length_writeInt16,
      length_writeInt32, length_writeString]
    omega
  have hcount : request.topics.length ≤
      (request.topics.flatMap (writeTopic crc32)).length := by
    apply length_le_length_flatMap
    intro topic _
    rw [writeTopic, List.length_append, length_writeString]
    omega
  have htopics : ∀ topic ∈ request.topics, ∀ rest,
      readTopic codec (.ofBytes (writeTopic crc32 topic ++ rest)) =
        some (topic.plain, .ofBytes rest) := by
    intro topic htopic rest
    have hle : (writeTopic crc32 topic).length ≤
      (request.topics.flatMap (writeTopic crc32)).length := length_le_flatMap htopic
    exact readTopic_writeTopic codec (hsized.topicName topic htopic) (hsized.plain topic htopic)
      (by omega) rest
  unfold readRequest writeRequest
  rw [List.append_assoc, readInt32_writeInt32]
  dsimp only
  unfold writeBody writeRequestMessage
  simp only [List.append_assoc]
  rw [readInt16_writeInt16]
  dsimp only
  rw [readInt16_writeInt16]
  dsimp only
  rw [readInt32_writeInt32]
  dsimp only
  rw [readString_writeString hsized.client]
  dsimp only
  rw [readInt16_writeInt16]
  dsimp only
  rw [readInt32_writeInt32]
  dsimp only
  rw [readInt32_writeInt32]
  dsimp only
  rw [toNat_ofNat_of_lt (by omega), Istream.readMany_flatMap htopics]
  dsimp only
  rw [if_pos]
  · rfl
  · refine ⟨rfl, rfl, ?_⟩
    rw [requestWireSize_eq crc32, toNat_ofNat_of_lt (by omega), hlength]
    show (_ ++ _ : List Byte).length = _ + rest.length
    simp only [List.length_append, length_writeInt16, length_writeInt32, length_writeString]
    omega

variable (crc32) in
/-- A broker that takes apart the requests written one after the other gets each as it was made,
but for an empty key or value, which is read as none. -/
theorem requests_read_back {clientId : List Byte} {requests : List ProduceRequest}
    (hsized : ∀ request ∈ requests, request.Sized crc32 clientId) (rest : List Byte) :
    (Istream.ofBytes (requests.flatMap (writeRequest crc32 clientId) ++ rest)).readMany
        (readRequest codec) requests.length =
      some (requests.map fun request => (clientId, request.plain), .ofBytes rest) :=
  Istream.readMany_flatMap
    (fun request hrequest => readRequest_writeRequest codec (hsized request hrequest)) rest

end

/-- The bytes of `hvbench`. -/
def hvbench : List Byte := [104, 118, 98, 101, 110, 99, 104]

/-- What `KafkaOutput::write` sends for a record: its JSON, as the value of one message. -/
def recordRequest (json : List Byte) : ProduceRequest :=
  ProduceRequest.create.addValue json hvbench 0

theorem length_recordRequest (json : List Byte) :
    (writeBody checksum hvbench (recordRequest json)).length = 74 + json.length := by
  have htopics : (recordRequest json).topics =
      [⟨hvbench, [⟨0, [⟨0, 0, none, some json, []⟩]⟩]⟩] := rfl
  have hset : (writeMessageSet checksum [⟨0, 0, none, some json, []⟩]).length =
      26 + json.length := by
    rw [length_writeMessageSet_cons, length_writeMessage, writeBytes, writeBytes,
      List.length_append, length_writeInt32, length_writeInt32]
    show 12 + (6 + (4 + (4 + json.length))) + 0 = _
    omega
  have hname : hvbench.length = 7 := rfl
  unfold writeBody writeRequestMessage
  rw [htopics, List.flatMap_singleton, writeTopic, List.flatMap_singleton, writePartition]
  simp only [List.length_append, length_writeInt16, length_writeInt32, length_writeString, hset,
    hname]
  omega

theorem recordRequest_sized {json : List Byte} (h : json.length < 2 ^ 30) :
    (recordRequest json).Sized checksum hvbench := by
  have htopics : (recordRequest json).topics =
      [⟨hvbench, [⟨0, [⟨0, 0, none, some json, []⟩]⟩]⟩] := rfl
  refine ⟨by decide, ?_, ?_, ?_⟩
  · rw [htopics]
    simp [hvbench]
  · rw [htopics]
    simp [MessageAndOffset.Plain, compression]
  · rw [length_recordRequest]
    omega

theorem requests_read_back_two :
    (Istream.ofBytes ([recordRequest [123, 125], recordRequest [91, 93]].flatMap
        (writeRequest checksum hvbench) ++ [])).readMany (Broker.readRequest fallback)
          [recordRequest [123, 125], recordRequest [91, 93]].length =
      some ([(hvbench, recordRequest [123, 125]), (hvbench, recordRequest [91, 93])],
        .ofBytes []) := by
  have hsized : ∀ request ∈ [recordRequest [123, 125], recordRequest [91, 93]],
      request.Sized checksum hvbench := by
    intro request hrequest
    rcases List.mem_cons.mp hrequest with rfl | hrequest
    · exact recordRequest_sized (by decide)
    · rw [List.mem_singleton.mp hrequest]
      exact recordRequest_sized (by decide)
  rw [requests_read_back checksum fallback hsized []]
  rfl

end Kafka
end HVBench
