import LibHuffman.Foundation.Routine
import LibHuffman.Foundation.Follows
import LibHuffman.Foundation.Triple
import LibHuffman.Foundation.Tie
import LibHuffman.Foundation.Bytes
import LibHuffman.Foundation.BitString
import LibHuffman.Foundation.Calls
import LibHuffman.Foundation.Preorder
import LibHuffman.Foundation.CodeTree
import LibHuffman.Foundation.Leaves
import LibHuffman.Foundation.Huffman
import LibHuffman.Foundation.Optimal
import LibHuffman.Foundation.PrefixCode
import LibHuffman.Foundation.Entropy
import LibHuffman.Foundation.Mirror
import LibHuffman.Model.System
import LibHuffman.Model.Io
import LibHuffman.Model.Descriptor
import LibHuffman.Model.Bufio
import LibHuffman.Model.Histogram
import LibHuffman.Model.Tree
import LibHuffman.Model.Symbol
import LibHuffman.Model.Config
import LibHuffman.Model.Decoder
import LibHuffman.Model.Encoder
import LibHuffman.Streams.Contract
import LibHuffman.Streams.Partial
import LibHuffman.Streams.Writer
import LibHuffman.Streams.Counter
import LibHuffman.Streams.BufferedRead
import LibHuffman.Streams.Reader
import LibHuffman.Streams.Failures
import LibHuffman.Streams.Descriptor
import LibHuffman.Streams.Memory
import LibHuffman.Trees.Linked
import LibHuffman.Trees.Deserialize
import LibHuffman.Trees.Release
import LibHuffman.Trees.Minimum
import LibHuffman.Trees.Forest
import LibHuffman.Trees.Slots
import LibHuffman.Trees.Build
import LibHuffman.Trees.Codes
import LibHuffman.Trees.RoundTrip
import LibHuffman.Trees.Taken
import LibHuffman.Trees.Shape
import LibHuffman.Trees.Iterations
import LibHuffman.Trees.Greedy
import LibHuffman.Format.Blocks
import LibHuffman.Format.Grammar
import LibHuffman.Format.Restored
import LibHuffman.Encode.Histogram
import LibHuffman.Encode.State
import LibHuffman.Encode.Coding
import LibHuffman.Encode.CodeTable
import LibHuffman.Encode.Payload
import LibHuffman.Encode.CodeCost
import LibHuffman.Encode.Size
import LibHuffman.Encode.Block
import LibHuffman.Encode.Stream
import LibHuffman.Encode.SymbolMapping
import LibHuffman.Encode.Serialized
import LibHuffman.Decode.State
import LibHuffman.Decode.Block
import LibHuffman.Decode.Stream
import LibHuffman.Decode.Failure
import LibHuffman.Decode.Acceptance
import LibHuffman.Decode.Extension
import LibHuffman.Decode.DeclaredLength
import LibHuffman.Codec.RoundTrip
import LibHuffman.Codec.TreeSize
import LibHuffman.Codec.Independence
import LibHuffman.Codec.Torn
import LibHuffman.Allocation.Schedule
import LibHuffman.Allocation.Creation
import LibHuffman.Allocation.Trees
import LibHuffman.Allocation.Cleanup
import LibHuffman.Allocation.Build
import LibHuffman.Allocation.Decoder
import LibHuffman.Allocation.Decoding
import LibHuffman.Allocation.Encoder
import LibHuffman.Allocation.Encoding
import LibHuffman.Allocation.FailSafe
import LibHuffman.Allocation.Abandoned
import LibHuffman.Release.Heap
import LibHuffman.Release.Construction
import LibHuffman.Release.Decoder
import LibHuffman.Release.Encoder
import LibHuffman.Refinement.Ideal
import LibHuffman.Refinement.Object
import LibHuffman.Refinement.Encoder
import LibHuffman.Refinement.Decoder
import LibHuffman.Refinement.Encoding
import LibHuffman.Refinement.Decoding
import LibHuffman.Refinement.Streams
import LibHuffman.Likeness.Bufio
import LibHuffman.Likeness.Config
import LibHuffman.Likeness.Encoder
import LibHuffman.Likeness.Decoder
import LibHuffman.Likeness.Memory
import LibHuffman.HuffmanFile.Classes
import LibHuffman.HuffmanFile.Compressor
import LibHuffman.HuffmanFile.Chunks
import LibHuffman.HuffmanFile.Decompressor
import LibHuffman.HuffmanFile.Reading
import LibHuffman.HuffmanFile.Session
import LibHuffman.HuffmanFile.Archive
import LibHuffman.HuffmanFile.Native
import LibHuffman.HuffmanFile.Refined
import LibHuffman.HuffmanFile.Refinement
import LibHuffman.HuffmanFile.Room
