import ThesisBench.Btree.Proofs.Complete
import ThesisBench.Btree.Proofs.Destroy
import ThesisBench.Btree.Proofs.Invariant
import ThesisBench.Btree.Proofs.Loaded
import ThesisBench.Btree.Proofs.Orphan
import ThesisBench.Btree.Proofs.Random
import ThesisBench.Btree.Proofs.Scatter
import ThesisBench.Canneal.Proofs.Annealer
import ThesisBench.Canneal.Proofs.Cost
import ThesisBench.Canneal.Proofs.Fanout
import ThesisBench.Canneal.Proofs.Header
import ThesisBench.Canneal.Proofs.Swap
import ThesisBench.Gapbs.Proofs.BcVerifier
import ThesisBench.Gapbs.Proofs.Bfs
import ThesisBench.Gapbs.Proofs.Bitmap
import ThesisBench.Gapbs.Proofs.CcVerifier
import ThesisBench.Gapbs.Proofs.Generator
import ThesisBench.Gapbs.Proofs.Lightest
import ThesisBench.Gapbs.Proofs.PageRankGs
import ThesisBench.Gapbs.Proofs.PrefixSum
import ThesisBench.Gapbs.Proofs.QueueBuffer
import ThesisBench.Gapbs.Proofs.Reader
import ThesisBench.Gapbs.Proofs.Rebuild
import ThesisBench.Gapbs.Proofs.Serialized
import ThesisBench.Gapbs.Proofs.ShiloachVishkin
import ThesisBench.Gapbs.Proofs.SsspVerifier
import ThesisBench.Gapbs.Proofs.Tc
import ThesisBench.Gapbs.Proofs.TopK
import ThesisBench.Gups.Proofs.Bounds
import ThesisBench.Hashjoin.Proofs.Join
import ThesisBench.Launch.Proofs.Handshake
import ThesisBench.XsBench.Proofs.CrossSections
